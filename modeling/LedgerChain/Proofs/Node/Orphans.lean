import LedgerChain.Proofs.Node.AtBest
import LedgerChain.Proofs.Node.Memory

/-!
# The orphans of a node

The orphans of a node form a list, oldest first (`Node.waiting`), in which identifiers are distinct
and which is no longer than the pool has room for (`Node.Orderly`).

A block that is handed to a node is passed over, refused, held as an orphan, or offered to the chain
(`Node.Handled`).  This says what one import does to the orphans, the tree and the memory of invalid
blocks: an orphan leaves the pool only as the oldest one of a full pool, and a block joins the tree
only above a block that is there.

* `Handled.of_find?` : a block that joins the tree is the one that was handed in, on a block that
  is there.
* `Handled.of_mem_waiting` : a block becomes an orphan while neither it nor its parent is in the
  tree.
* `Handled.of_mem_invalid` : an identifier is noted as invalid only if the header is found bad.
-/

namespace LedgerChain

/-- Faults with which pointers can be written, and the store can be read. -/
def Faults.Unhindered (faults : Faults) : Prop :=
  faults.pointerWrites = false ∧ faults.reads = false

/-- Faults with which blocks can be written, too. -/
def Faults.Harmless (faults : Faults) : Prop := faults.blockWrites = false ∧ faults.Unhindered

variable [Crypto]

namespace Node

variable {n n' : Node} {b c : Block} {parent : BlockId} {tip : ChainTip}

/-! ### The list of orphans -/

/-- The orphans of a node, oldest first. -/
def waiting (n : Node) : List Block := (n.orphans.map OrphanPool.blocks).getD []

/-- The pool keeps the orphans in order, and has room for them. -/
def Orderly (n : Node) : Prop :=
  ∀ pool, n.orphans = some pool → pool.Holds n.waiting ∧ n.waiting.length ≤ pool.capacity

/-- There is no room for another orphan. -/
def Full (n : Node) : Prop := ∃ pool, n.orphans = some pool ∧ pool.capacity ≤ n.waiting.length

theorem waiting_of_orphans_eq (h : n'.orphans = n.orphans) : n'.waiting = n.waiting := by
  rw [waiting, waiting, h]

theorem waiting_of_none (h : n.orphans = none) : n.waiting = [] := by
  rw [waiting, h]
  rfl

theorem orderly_of_orphans_eq (h : n'.orphans = n.orphans) (hn : n.Orderly) : n'.Orderly := by
  intro pool hpool
  rw [waiting_of_orphans_eq h]
  exact hn pool (h ▸ hpool)

theorem orderly_of_holds {pool : OrphanPool} {l : List Block} (hpool : n.orphans = some pool)
    (hholds : pool.Holds l) (hroom : l.length ≤ pool.capacity) : n.waiting = l ∧ n.Orderly := by
  have hwaiting : n.waiting = l := by
    rw [waiting, hpool]
    exact hholds.blocks_eq
  refine ⟨hwaiting, fun pool' hpool' => ?_⟩
  rw [hpool] at hpool'
  cases hpool'
  rw [hwaiting]
  exact ⟨hholds, hroom⟩

theorem Orderly.nodup (h : n.Orderly) : (n.waiting.map Block.id).Nodup := by
  cases hpool : n.orphans with
  | none =>
    rw [waiting_of_none hpool]
    exact List.nodup_nil
  | some pool => exact (h pool hpool).1.nodup

theorem Orderly.orphanCount_eq (h : n.Orderly) : n.orphanCount = n.waiting.length := by
  rw [orphanCount]
  cases hpool : n.orphans with
  | none =>
    rw [waiting_of_none hpool]
    rfl
  | some pool => exact (h pool hpool).1.size_eq

theorem Orderly.takeOrphans (h : n.Orderly) (parent : BlockId) :
    (n.takeOrphans parent).1 = n.waiting.filter (fun b => b.parent = parent) ∧
      (n.takeOrphans parent).2.waiting = n.waiting.filter (fun b => b.parent ≠ parent) ∧
      (n.takeOrphans parent).2.Orderly ∧ (n.takeOrphans parent).2.invalid = n.invalid := by
  rw [Node.takeOrphans]
  cases hpool : n.orphans with
  | none =>
    rw [waiting_of_none hpool]
    exact ⟨rfl, rfl, h, rfl⟩
  | some pool =>
    obtain ⟨hholds, hroom⟩ := h pool hpool
    obtain ⟨htaken, hcapacity, hleft⟩ := hholds.takeChildren parent
    obtain ⟨hwaiting, horderly⟩ := orderly_of_holds
      (n := { n with orphans := some (pool.takeChildren parent).2 }) rfl hleft
      (hcapacity ▸ (List.length_filter_le _ _).trans hroom)
    exact ⟨htaken, hwaiting, horderly, rfl⟩

theorem isAccepted_holdOrphan (n : Node) (b : Block) : (n.holdOrphan b).1.isAccepted = false := by
  rw [holdOrphan]
  split
  · rfl
  · simp only
    split <;> rfl

/-- **A held block goes to the end, and the oldest orphan goes if the pool is full.**  If a block is
held under the same identifier, the new one is not kept. -/
theorem Orderly.holdOrphan_cases (h : n.Orderly) (b : Block) :
    (n.holdOrphan b).2.Orderly ∧ (n.holdOrphan b).2.invalid = n.invalid ∧
      (((n.holdOrphan b).2.waiting = n.waiting ∧
          ((n.holdOrphan b).1 = .pendingParent → b.id ∈ n.waiting.map Block.id)) ∨
        (b.id ∉ n.waiting.map Block.id ∧ (n.holdOrphan b).1 = .pendingParent ∧
          ((n.holdOrphan b).2.waiting = n.waiting ++ [b] ∨
            n.Full ∧ ∃ c rest, n.waiting = c :: rest ∧
              (n.holdOrphan b).2.waiting = rest ++ [b]))) := by
  rw [holdOrphan]
  cases hpool : n.orphans with
  | none => exact ⟨h, rfl, Or.inl ⟨rfl, fun hpending => by cases hpending⟩⟩
  | some pool =>
    obtain ⟨hholds, hroom⟩ := h pool hpool
    by_cases hnot : pool.capacity = 0 ∨ b.id ∈ n.waiting.map Block.id
    · have hsame : ∀ {m : Node}, m.orphans = n.orphans → m.invalid = n.invalid →
          m.Orderly ∧ m.invalid = n.invalid ∧ m.waiting = n.waiting :=
        fun horphans hinvalid => ⟨orderly_of_orphans_eq horphans h, hinvalid,
          waiting_of_orphans_eq horphans⟩
      simp only [hholds.insert_of_not hnot, Bool.false_or]
      split
      · rename_i hin
        obtain ⟨ho, hi, hw⟩ := hsame (m := { n with orphans := some pool }) hpool.symm rfl
        exact ⟨ho, hi, Or.inl ⟨hw, fun _ => hholds.contains_iff.1 hin⟩⟩
      · obtain ⟨ho, hi, hw⟩ := hsame (m := { n with orphans := some pool }) hpool.symm rfl
        exact ⟨ho, hi, Or.inl ⟨hw, fun hpending => by cases hpending⟩⟩
    · obtain ⟨hcapacity, hnew⟩ := not_or.1 hnot
      obtain ⟨htaken, hsame, hkept⟩ := hholds.insert hcapacity hnew
      simp only [htaken, Bool.true_or, if_true]
      have hlength : (n.waiting.drop (n.waiting.length + 1 - pool.capacity) ++ [b]).length ≤
          (pool.insert b).2.capacity := by
        rw [hsame, List.length_append, List.length_drop, List.length_singleton]
        omega
      obtain ⟨hwaiting, horderly⟩ := orderly_of_holds
        (n := { n with orphans := some (pool.insert b).2 }) rfl hkept hlength
      refine ⟨horderly, trivial, Or.inr ⟨hnew, trivial, ?_⟩⟩
      rw [hwaiting]
      rcases Nat.lt_or_ge n.waiting.length pool.capacity with hlt | hge
      · left
        rw [Nat.sub_eq_zero_of_le hlt, List.drop_zero]
      · right
        refine ⟨⟨pool, hpool, hge⟩, ?_⟩
        -- the pool is full, and not empty since it has room for a block
        cases hlist : n.waiting with
        | nil =>
          rw [hlist, List.length_nil] at hge
          exact absurd (Nat.le_zero.1 hge) hcapacity
        | cons c rest =>
          have hone : (c :: rest).length + 1 - pool.capacity = 1 := by
            rw [hlist] at hge hroom
            omega
          exact ⟨c, rest, rfl, by rw [hone, List.drop_one, List.tail_cons]⟩

/-! ### Offering a block that fits -/

/-- The block is new to the tree, its parent is there, and validation makes it the given tip. -/
structure Checks (n : Node) (b : Block) (tip : ChainTip) : Prop where
  block_eq : tip.block = b
  heavy : n.Heavy tip
  fits : ∃ below, n.forkChoice.tree.Fits tip below

theorem checks_of_validateBlock {below : TreeEntry} (hfresh : n.hasSeen b.id = false)
    (hbelow : n.forkChoice.tree.find? b.parent = some below)
    (hvalid : validateBlock n.engine b below.tip = .ok tip) : n.Checks b tip := by
  have hblock := block_eq_of_validateBlock hvalid
  refine ⟨hblock, heavy_of_validateBlock hvalid, below, ?_, ?_,
    (follows_of_validateBlock hvalid).height_eq⟩
  · rw [ChainTip.id, hblock]
    exact ChainTree.find?_eq_none_iff.2 hfresh
  · rw [ChainTip.parent, hblock]
    exact hbelow

theorem Checks.hasSeen_parent (h : n.Checks b tip) : n.hasSeen b.parent = true := by
  obtain ⟨below, hfits⟩ := h.fits
  rw [← h.block_eq]
  exact ChainTree.contains_iff.2 ⟨below, hfits.on_tree⟩

/-- **A block that fits is attached, unless it cannot be written.**  It is not accepted only if a
write fails. -/
theorem offer_fits_cases (hn : n.Sound) (h : n.Checks b tip) :
    (n.store.faults.blockWrites = true ∧ ∃ e, n.offer tip = (.error (.store e), n)) ∨
      n.store.faults.blockWrites = false ∧
        ((n.store.faults.pointerWrites = true ∧ ∃ e, (n.offer tip).1 = .error (.store e)) ∨
          ∃ outcome update, (n.offer tip).1 = .ok (outcome, update) ∧
            (ImportResult.ofOutcome outcome).isAccepted = true) := by
  obtain ⟨below, hfits⟩ := h.fits
  cases hput : n.store.put tip.block tip.state with
  | error e =>
    left
    rw [Store.put] at hput
    split at hput
    · rename_i hfault
      rw [offer, Store.put, if_pos hfault]
      exact ⟨hfault, _, rfl⟩
    · cases hput
  | ok store =>
    right
    refine ⟨(Store.put_eq_ok_iff.1 hput).1, ?_⟩
    have hoffer : n.offer tip = decide { n with store } tip := by rw [offer, hput]
    have hd := decided_decide (n := { n with store }) hn.wellFormed h.heavy.weight_pos
    rw [hoffer]
    rcases hres : Node.decide { n with store } tip with ⟨answer, n'⟩
    rw [hres] at hd
    -- a block that fits is decided on, unless the canonical pointer cannot be written
    cases hd with
    | unchanged hnot _ => exact absurd hfits (hnot below)
    | stayed _ _ => exact Or.inr ⟨_, _, rfl, rfl⟩
    | @heldBack below' _ e hfits' hbest _ herror =>
      exact Or.inl ⟨pointerWrites_of_setPointer_error hn hput hbest.mem_tips herror, e, rfl⟩
    | @moved _ _ outcome _ _ _ _ _ hchanged _ _ =>
      refine Or.inr ⟨outcome, _, rfl, ?_⟩
      cases outcome with
      | extended => rfl
      | switched _ _ => rfl
      | ignored _ => cases hchanged

theorem Checks.isAccepted_of_offer (h : n.Checks b tip) (hn : n.Sound) {outcome : Outcome}
    {update : PoolUpdate} (hoffer : (n.offer tip).1 = .ok (outcome, update)) :
    (ImportResult.ofOutcome outcome).isAccepted = true := by
  rcases offer_fits_cases hn h with ⟨-, e, heq⟩ | ⟨-, ⟨-, e, heq⟩ | ⟨o, u, heq, haccepted⟩⟩
  · rw [heq] at hoffer
    cases hoffer
  · rw [hoffer] at heq
    cases heq
  · rw [hoffer] at heq
    cases heq
    exact haccepted

/-- The tree after an offer has the blocks from before, and perhaps the block that was offered, on a
parent from before. -/
theorem find?_of_find?_offer (hn : n.Sound) (hheavy : n.Heavy tip) {id : BlockId} {e : TreeEntry}
    (he : (n.offer tip).2.forkChoice.tree.find? id = some e) :
    (e.tip = tip ∧ n.hasSeen tip.parent = true) ∨
      ∃ f, n.forkChoice.tree.find? id = some f ∧ e.tip = f.tip := by
  rcases n.offer_cases tip with ⟨e', heq⟩ | ⟨store, -, heq⟩ <;> rw [heq] at he
  · exact Or.inr ⟨e, he, rfl⟩
  have hd := decided_decide (n := { n with store }) hn.wellFormed hheavy.weight_pos
  rcases hres : Node.decide { n with store } tip with ⟨answer, n'⟩
  rw [hres] at hd he
  have hparent : ∀ {below}, n.forkChoice.tree.Fits tip below → n.hasSeen tip.parent = true :=
    fun hfits => ChainTree.contains_iff.2 ⟨_, hfits.on_tree⟩
  rcases hd.of_find? he with htip | hbefore
  · cases hd with
    | unchanged _ _ => exact Or.inr ⟨e, he, rfl⟩
    | stayed hfits _ => exact Or.inl ⟨htip, hparent hfits⟩
    | heldBack hfits _ _ _ => exact Or.inl ⟨htip, hparent hfits⟩
    | moved hfits _ _ _ _ _ => exact Or.inl ⟨htip, hparent hfits⟩
  · exact Or.inr hbefore

/-- An offer that fails leaves the tree alone, unless a pointer cannot be written. -/
theorem forkChoice_offer_of_error (hn : n.Sound) (hheavy : n.Heavy tip) {e : ChainError}
    (h : (n.offer tip).1 = .error e) :
    (n.offer tip).2.forkChoice = n.forkChoice ∨ n.store.faults.pointerWrites = true := by
  rcases n.offer_cases tip with ⟨e', heq⟩ | ⟨store, hput, heq⟩ <;> rw [heq] at h ⊢
  · exact Or.inl rfl
  have hd := decided_decide (n := { n with store }) hn.wellFormed hheavy.weight_pos
  rcases hres : Node.decide { n with store } tip with ⟨answer, n'⟩
  rw [hres] at hd h
  cases h
  cases hd with
  | unchanged _ _ => exact Or.inl rfl
  | heldBack _ hbest _ herror =>
    exact Or.inr (pointerWrites_of_setPointer_error hn hput hbest.mem_tips herror)

/-! ### One import -/

/-- The header of a block is found bad on its parent, which is in the tree. -/
def FindsBad (n : Node) (b : Block) : Prop :=
  ∃ below cause, n.forkChoice.tree.find? b.parent = some below ∧
    validateBlock n.engine b below.tip = .error cause ∧ cause.isBlockInvalid = true

theorem FindsBad.hasSeen_parent (h : n.FindsBad b) : n.hasSeen b.parent = true := by
  obtain ⟨below, -, hbelow, -⟩ := h
  exact ChainTree.contains_iff.2 ⟨below, hbelow⟩

/-- What an import of one block does: the answer, and the node after it. -/
inductive Handled (n : Node) (b : Block) : ImportAnswer → Node → Prop
  /-- The block is known, remembered as invalid, or stale. -/
  | passed {result : ImportResult} (haccepted : result.isAccepted = false)
      (hpending : result ≠ .pendingParent) : Handled n b (.ok result) n
  /-- It cannot be told whether the parent is stored. -/
  | unread {e : StoreError} (hreads : n.store.faults.reads = true) :
      Handled n b (.error (.store e)) n
  /-- The block is malformed, or validation turns it down. -/
  | refused {cause : ImportError}
      (hbad : cause.isBlockInvalid = true → n.FindsBad b) :
      Handled n b (.ok (.rejected cause)) (n.reject b.id cause).2
  /-- The block has to wait for its parent. -/
  | held (hfresh : n.hasSeen b.id = false) (hparent : n.hasSeen b.parent = false)
      (hclean : b.id ∉ n.invalid.ids) (hshape : b.checkShape n.params.consensus = .ok ()) :
      Handled n b (.ok (n.holdOrphan b).1) (n.holdOrphan b).2
  /-- The block is offered to the chain, and a write fails. -/
  | failed {tip : ChainTip} {e : ChainError} (h : n.Checks b tip)
      (hoffer : (n.offer tip).1 = .error e) : Handled n b (.error e) (n.offer tip).2
  /-- The block is offered to the chain. -/
  | decided {tip : ChainTip} {outcome : Outcome} {update : PoolUpdate} (h : n.Checks b tip)
      (hoffer : (n.offer tip).1 = .ok (outcome, update)) :
      Handled n b (.ok (.ofOutcome outcome)) ((n.offer tip).2.updatePool update)

theorem handled_importUnknownParent (hfresh : n.hasSeen b.id = false)
    (hparent : n.hasSeen b.parent = false) (hclean : b.id ∉ n.invalid.ids)
    (hshape : b.checkShape n.params.consensus = .ok ()) :
    Handled n b (n.importUnknownParent b).1 (n.importUnknownParent b).2 := by
  rw [importUnknownParent]
  split
  · exact .passed rfl (by simp)
  · split
    · rename_i e hread
      rw [Store.getBlock, Store.read] at hread
      split at hread
      · rename_i hreads
        exact .unread hreads
      · cases hread
    · exact .passed rfl (by simp)
    · exact .held hfresh hparent hclean hshape

/-- **Every import of one block goes one of these ways.** -/
theorem handled_importOne (n : Node) (b : Block) :
    Handled n b (n.importOne b).1 (n.importOne b).2 := by
  -- the exits in their order
  cases hseen : n.hasSeen b.id with
  | true =>
    rw [importOne, if_pos hseen]
    exact .passed rfl (by simp)
  | false =>
    cases hinvalid : n.invalid.contains b.id with
    | true =>
      simp only [importOne, hseen, hinvalid, Bool.false_eq_true, if_false, if_true]
      exact .passed rfl (by simp)
    | false =>
      simp only [importOne, hseen, hinvalid, Bool.false_eq_true, if_false]
      cases hshape : b.checkShape n.params.consensus with
      | error e => exact .refused fun hbad => by cases hbad
      | ok u =>
        cases hbelow : n.forkChoice.tree.find? b.parent with
        | none =>
          exact handled_importUnknownParent hseen (ChainTree.find?_eq_none_iff.1 hbelow)
            (of_decide_eq_false hinvalid) hshape
        | some below =>
          simp only [importOnParent]
          cases hvalid : validateBlock n.engine b below.tip with
          | error e => exact .refused fun hbad => ⟨below, e, hbelow, hvalid, hbad⟩
          | ok tip =>
            have hchecks := checks_of_validateBlock hseen hbelow hvalid
            simp only [submitTip_eq]
            rcases hoffer : n.offer tip with ⟨e | ⟨outcome, update⟩, n₁⟩
            · have hend : Handled n b (.error e) (n.offer tip).2 := .failed hchecks (by rw [hoffer])
              rwa [hoffer] at hend
            · have hend : Handled n b (.ok (.ofOutcome outcome))
                  ((n.offer tip).2.updatePool update) := .decided hchecks (by rw [hoffer])
              rwa [hoffer] at hend

theorem handled_of_importOne {answer : ImportAnswer} (h : n.importOne b = (answer, n')) :
    Handled n b answer n' := by
  have hone := handled_importOne n b
  rwa [h] at hone

theorem Admits.run_of_importOne {I : Node → Prop} {K A : Node → ChainTip → Prop}
    (hA : Admits I K A) (hn : I n) {answer : ImportAnswer} (h : n.importOne b = (answer, n')) :
    Run A n n' := by
  have hone := hA.importOne hn b
  rwa [h] at hone

theorem run_of_importOne {answer : ImportAnswer} (hwf : n.forkChoice.WellFormed)
    (h : n.importOne b = (answer, n')) : Run Heavy n n' :=
  admits_heavy.run_of_importOne hwf h

namespace Handled

variable {answer : ImportAnswer} (h : Handled n b answer n')

include h

/-- What becomes of the pool of orphans: it stays as it is, or the block is held. -/
theorem orphans_eq_or : n'.orphans = n.orphans ∨
    (answer = .ok (n.holdOrphan b).1 ∧ n' = (n.holdOrphan b).2 ∧ n.hasSeen b.id = false ∧
      n.hasSeen b.parent = false) := by
  cases h with
  | passed _ _ => exact Or.inl rfl
  | unread _ => exact Or.inl rfl
  | @refused cause _ =>
    left
    rw [reject]
    split <;> rfl
  | held hfresh hparent _ _ => exact Or.inr ⟨rfl, rfl, hfresh, hparent⟩
  | @failed tip _ _ _ => exact Or.inl (sameMemory_offer n tip).orphans
  | @decided tip _ update _ _ =>
    exact Or.inl ((sameMemory_offer n tip).trans (sameMemory_updatePool _ update)).orphans

theorem orderly (hn : n.Orderly) : n'.Orderly := by
  rcases h.orphans_eq_or with horphans | ⟨-, rfl, -, -⟩
  · exact orderly_of_orphans_eq horphans hn
  · exact (hn.holdOrphan_cases b).1

/-- **An orphan stays, unless it is the oldest one of a full pool** and has to make room. -/
theorem mem_waiting_or (hn : n.Orderly) (hc : c ∈ n.waiting) :
    c ∈ n'.waiting ∨
      n.Full ∧ ∃ rest, n.waiting = c :: rest ∧ n'.waiting = rest ++ [b] := by
  rcases h.orphans_eq_or with horphans | ⟨-, rfl, -, -⟩
  · rw [waiting_of_orphans_eq horphans]
    exact Or.inl hc
  · obtain ⟨-, -, ⟨hsame, -⟩ | ⟨-, -, hroom | ⟨hfull, d, rest, hbefore, hafter⟩⟩⟩ :=
      hn.holdOrphan_cases b
    · rw [hsame]
      exact Or.inl hc
    · rw [hroom]
      exact Or.inl (List.mem_append_left _ hc)
    · rw [hbefore] at hc
      rcases List.mem_cons.1 hc with rfl | hc
      · exact Or.inr ⟨hfull, rest, hbefore, hafter⟩
      · rw [hafter]
        exact Or.inl (List.mem_append_left _ hc)

/-- A block becomes an orphan while neither it nor its parent is in the tree, and the chain stays as
it is. -/
theorem of_mem_waiting (hn : n.Orderly) (hc : c ∈ n'.waiting) :
    c ∈ n.waiting ∨ (c = b ∧ n.hasSeen b.id = false ∧ n.hasSeen b.parent = false ∧
      n.SameChain n') := by
  rcases h.orphans_eq_or with horphans | ⟨-, rfl, hfresh, hparent⟩
  · rw [waiting_of_orphans_eq horphans] at hc
    exact Or.inl hc
  · have hchain := sameChain_holdOrphan n b
    obtain ⟨-, -, ⟨hsame, -⟩ | ⟨-, -, hroom | ⟨-, d, rest, hbefore, hafter⟩⟩⟩ :=
      hn.holdOrphan_cases b
    · rw [hsame] at hc
      exact Or.inl hc
    · rw [hroom] at hc
      rcases List.mem_append.1 hc with hc | hc
      · exact Or.inl hc
      · exact Or.inr ⟨List.mem_singleton.1 hc, hfresh, hparent, hchain⟩
    · rw [hafter] at hc
      rcases List.mem_append.1 hc with hc | hc
      · rw [hbefore]
        exact Or.inl (List.mem_cons_of_mem _ hc)
      · exact Or.inr ⟨List.mem_singleton.1 hc, hfresh, hparent, hchain⟩

/-- A block that joins the tree is the one that was handed in.  Its parent is in the tree, and if
nothing fails it is accepted. -/
theorem of_find? (hn : n.Sound) {id : BlockId} {e : TreeEntry}
    (he : n'.forkChoice.tree.find? id = some e) :
    (∃ f, n.forkChoice.tree.find? id = some f ∧ e.tip = f.tip) ∨
      (e.tip.block = b ∧ id = b.id ∧ n.hasSeen b.parent = true ∧
        ∀ result, answer = .ok result → result.isAccepted = true) := by
  have hold : ∀ {m : Node}, n.SameChain m → m.forkChoice.tree.find? id = some e →
      ∃ f, n.forkChoice.tree.find? id = some f ∧ e.tip = f.tip := by
    intro m hsame he
    rw [hsame.forkChoice] at he
    exact ⟨e, he, rfl⟩
  cases h with
  | passed _ _ => exact Or.inl (hold (.refl n) he)
  | unread _ => exact Or.inl (hold (.refl n) he)
  | refused _ => exact Or.inl (hold (sameChain_reject n b.id _) he)
  | held _ _ _ _ => exact Or.inl (hold (sameChain_holdOrphan n b) he)
  | @failed tip _ hchecks _ =>
    have hid := (wellFormed_offer hn.wellFormed hchecks.heavy.weight_pos).tree.id_eq he
    rcases find?_of_find?_offer hn hchecks.heavy he with ⟨rfl, -⟩ | hbefore
    · rw [ChainTip.id, hchecks.block_eq] at hid
      exact Or.inr ⟨hchecks.block_eq, hid.symm, hchecks.hasSeen_parent,
        fun result heq => by cases heq⟩
    · exact Or.inl hbefore
  | @decided tip outcome update hchecks hoffer =>
    rw [(sameChain_updatePool _ update).forkChoice] at he
    have hid := (wellFormed_offer hn.wellFormed hchecks.heavy.weight_pos).tree.id_eq he
    rcases find?_of_find?_offer hn hchecks.heavy he with ⟨rfl, -⟩ | hbefore
    · rw [ChainTip.id, hchecks.block_eq] at hid
      refine Or.inr ⟨hchecks.block_eq, hid.symm, hchecks.hasSeen_parent, fun result heq => ?_⟩
      cases heq
      exact hchecks.isAccepted_of_offer hn hoffer
    · exact Or.inl hbefore

/-- **An import of one block fails only if the store does**, and leaves the node as it was unless a
pointer cannot be written. -/
theorem of_error (hn : n.Sound) {e : ChainError} (herror : answer = .error e) :
    (∃ e', e = .store e') ∧
      (n.store.faults.reads = true ∧ n' = n ∨ n.store.faults.blockWrites = true ∧ n' = n ∨
        n.store.faults.pointerWrites = true) := by
  cases h with
  | passed _ _ => cases herror
  | unread hreads =>
    cases herror
    exact ⟨⟨_, rfl⟩, Or.inl ⟨hreads, rfl⟩⟩
  | refused _ => cases herror
  | held _ _ _ _ => cases herror
  | @failed tip e' hchecks hoffer =>
    cases herror
    rcases offer_fits_cases hn hchecks with
      ⟨hwrites, e', heq⟩ | ⟨-, ⟨hwrites, e', heq⟩ | ⟨o, u, heq, -⟩⟩
    · rw [heq] at hoffer ⊢
      cases hoffer
      exact ⟨⟨e', rfl⟩, Or.inr (Or.inl ⟨hwrites, rfl⟩)⟩
    · rw [heq] at hoffer
      cases hoffer
      exact ⟨⟨e', rfl⟩, Or.inr (Or.inr hwrites)⟩
    · rw [heq] at hoffer
      cases hoffer
  | decided _ _ => cases herror

theorem blockWrites_of_accepted (hn : n.Sound) {result : ImportResult}
    (hok : answer = .ok result) (haccepted : result.isAccepted = true) :
    n.store.faults.blockWrites = false := by
  cases h with
  | passed hnot _ =>
    cases hok
    rw [hnot] at haccepted
    cases haccepted
  | unread _ => cases hok
  | refused _ =>
    cases hok
    cases haccepted
  | held _ _ _ _ =>
    cases hok
    rw [isAccepted_holdOrphan] at haccepted
    cases haccepted
  | failed _ _ => cases hok
  | @decided tip outcome update hchecks hoffer =>
    rcases offer_fits_cases hn hchecks with ⟨-, e', heq⟩ | ⟨hwrites, -⟩
    · rw [heq] at hoffer
      cases hoffer
    · exact hwrites

theorem of_mem_invalid {id : BlockId} (hn : n.Orderly) (hid : id ∈ n'.invalid.ids) :
    id ∈ n.invalid.ids ∨ (id = b.id ∧ n.FindsBad b) := by
  cases h with
  | passed _ _ => exact Or.inl hid
  | unread _ => exact Or.inl hid
  | @refused cause hbad =>
    rw [reject] at hid
    split at hid
    · rename_i hinvalid
      exact (RecentIds.mem_of_mem_note hid).imp_right fun heq => ⟨heq, hbad hinvalid⟩
    · exact Or.inl hid
  | held _ _ _ _ =>
    rw [(hn.holdOrphan_cases b).2.1] at hid
    exact Or.inl hid
  | @failed tip _ _ _ =>
    rw [(sameMemory_offer n tip).invalid] at hid
    exact Or.inl hid
  | @decided tip _ update _ _ =>
    rw [((sameMemory_offer n tip).trans (sameMemory_updatePool _ update)).invalid] at hid
    exact Or.inl hid

end Handled

end Node

end LedgerChain
