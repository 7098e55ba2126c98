import LedgerChain.Proofs.Node.Unaccepted
import LedgerChain.Proofs.Node.Verdicts
import LedgerChain.Proofs.Tree.Walk

/-!
# What a release lets go

When a block is accepted, the orphans that wait for it are released and handed in, and then those that
wait for the accepted ones among them.  The loop that does so ends (`Orderly.releaseLoop_ends`): stack
and orphans together become fewer by one with each round.  If nothing fails and nothing is lost, then
it hands in exactly the orphans that became reachable, each of them once and after its parent, and
leaves the others as they were (`Node.Clearing.frees`).

No released block becomes an orphan again.  Its parent was accepted, so it is stored, and a block is
held only if its parent is not.  That the parent may have left the tree meanwhile makes no difference
(`Clearing.passes`).
-/

namespace LedgerChain

variable [Crypto]

namespace Handing

/-- The block is accepted. -/
def Accepts (h : Handing) : Prop := ∃ result, h.answer = .ok result ∧ result.isAccepted = true

/-- There is an answer other than that the block has to wait, and the orphans stay as they were. -/
structure Passes (h : Handing) : Prop where
  answered : ∃ result, h.answer = .ok result ∧ result ≠ .pendingParent
  waiting_eq : h.after.waiting = h.node.waiting

end Handing

namespace Node

variable {n n' n₁ : Node} {b c : Block} {id q : BlockId} {rest : List Block}
  {stack : List BlockId} {result : ImportResult} {log : List Handing}
  {ending : Except ChainError Unit}

/-! ### The loop -/

/-- A round of the loop that releases orphans: those of the topmost block of the stack are taken out
and handed in. -/
def releaseRound : List BlockId × Node → (List BlockId × Node) ⊕ (Except ChainError Unit × Node)
  | ([], n) => .inr (.ok (), n)
  | (parent :: stack, n) =>
    let (released, n₁) := n.takeOrphans parent
    match n₁.importReleased released with
    | (.error e, n₂) => .inr (.error e, n₂)
    | (.ok accepted, n₂) => .inl (accepted.reverse ++ stack, n₂)

/-- Stack and orphans together become fewer by one with each round. -/
theorem Orderly.length_releaseRound (hn : n.Orderly) {stack' : List BlockId}
    (h : releaseRound (q :: stack, n) = .inl (stack', n')) :
    n'.Orderly ∧ stack'.length + n'.waiting.length ≤ stack.length + n.waiting.length := by
  obtain ⟨htaken, hleft, hn₁, -⟩ := hn.takeOrphans q
  have hsplit : (n.takeOrphans q).1.length + (n.takeOrphans q).2.waiting.length =
      n.waiting.length := by
    rw [htaken, hleft]
    simp only [ne_eq, decide_not]
    exact (List.length_eq_length_filter_add _).symm
  simp only [releaseRound] at h
  rcases himport : (n.takeOrphans q).2.importReleased (n.takeOrphans q).1 with
    ⟨e | accepted, n₂⟩ <;> rw [himport] at h
  · cases h
  · cases h
    obtain ⟨hn₂, hle⟩ := hn₁.importReleased himport
    refine ⟨hn₂, ?_⟩
    rw [List.length_append, List.length_reverse]
    omega

/-- **The loop ends**, after no more rounds than there are blocks on the stack and orphans. -/
theorem Orderly.releaseFrom_ends (hn : n.Orderly) {steps : Nat}
    (hsteps : stack.length + n.waiting.length ≤ steps) :
    ∃ rounds, rounds ≤ steps ∧
      EndsIn releaseRound rounds (stack, n) (n.releaseFrom steps stack) := by
  induction steps generalizing n stack with
  | zero =>
    have hstack : stack = [] := List.length_eq_zero_iff.1 (by omega)
    subst hstack
    exact ⟨0, Nat.le_refl _, .done rfl⟩
  | succ steps ih =>
    cases stack with
    | nil => exact ⟨0, Nat.zero_le _, .done rfl⟩
    | cons parent stack =>
      rw [List.length_cons] at hsteps
      simp only [releaseFrom]
      rcases himport : (n.takeOrphans parent).2.importReleased (n.takeOrphans parent).1 with
        ⟨e | accepted, n₂⟩
      · exact ⟨0, Nat.zero_le _, .done (by simp only [releaseRound, himport])⟩
      · have hround : releaseRound (parent :: stack, n) = .inl (accepted.reverse ++ stack, n₂) := by
          simp only [releaseRound, himport]
        obtain ⟨hn₂, hle⟩ := hn.length_releaseRound hround
        obtain ⟨rounds, hrounds, hends⟩ := ih hn₂ (hle.trans (by omega))
        exact ⟨rounds + 1, by omega, .next hround hends⟩

/-- **A release ends**, after no more rounds than there are orphans and one. -/
theorem Orderly.releaseLoop_ends (hn : n.Orderly) (id : BlockId) :
    ∃ rounds, rounds ≤ n.waiting.length + 1 ∧
      EndsIn releaseRound rounds ([id], n) (n.releaseOrphans id) := by
  rw [releaseOrphans, hn.orphanCount_eq]
  exact hn.releaseFrom_ends (by simp [Nat.add_comm])

/-! ### A block whose parent is stored -/

theorem waiting_of_accepted (h : n.importOne b = (.ok result, n₁))
    (haccepted : result.isAccepted = true) : n₁.waiting = n.waiting := by
  rcases (handled_of_importOne h).orphans_eq_or with horphans | ⟨hanswer, -⟩
  · exact waiting_of_orphans_eq horphans
  · -- a block that is held is not accepted
    cases hanswer
    rw [isAccepted_holdOrphan] at haccepted
    cases haccepted

theorem waiting_importOne_or (hn : n.Sound) (h : n.importOne b = (.ok result, n₁)) :
    (n₁.waiting = n.waiting ∧ result ≠ .pendingParent) ∨ n.store.getBlock b.parent = .ok none := by
  cases haccepted : result.isAccepted with
  | true =>
    refine Or.inl ⟨waiting_of_accepted h haccepted, ?_⟩
    rintro rfl
    cases haccepted
  | false =>
    cases unaccepted_importOne hn haccepted h with
    | ignored reason => exact Or.inl ⟨rfl, by simp⟩
    | refused cause =>
      left
      refine ⟨waiting_of_orphans_eq ?_, by simp⟩
      rw [reject]
      split <;> rfl
    | held _ _ hstored _ => exact Or.inr hstored

theorem contains_of_offer (hn : n.Sound) {tip : ChainTip} (hheavy : n.Heavy tip)
    {answer : Outcome × PoolUpdate} (h : (n.offer tip).1 = .ok answer) :
    (n.offer tip).2.store.blocks.contains tip.id = true := by
  rcases written_offer_or n tip with ⟨e, herror⟩ | hwritten
  · rw [herror] at h
    cases h
  · have hsound : (n.offer tip).2.Sound := Step.sound (.offer hheavy) hn
    obtain ⟨state, hmem⟩ := Store.mem_writtenBlocks.1 hwritten
    rw [hsound.journaled.blocks_eq]
    exact Store.contains_of_mem_journal hmem

theorem contains_of_accepted (hn : n.Sound) (h : n.importOne b = (.ok result, n₁))
    (haccepted : result.isAccepted = true) : n₁.store.blocks.contains b.id = true := by
  have hone := handled_of_importOne h
  generalize hanswer : (Except.ok result : ImportAnswer) = answer at hone
  cases hone with
  | passed hnot _ =>
    cases hanswer
    rw [hnot] at haccepted
    cases haccepted
  | unread _ => cases hanswer
  | refused _ =>
    cases hanswer
    cases haccepted
  | held _ _ _ _ =>
    cases hanswer
    rw [isAccepted_holdOrphan] at haccepted
    cases haccepted
  | failed _ _ => cases hanswer
  | @decided tip _ update hchecks hoffer =>
    rw [(sameChain_updatePool _ update).store, ← hchecks.block_eq]
    exact contains_of_offer hn hchecks.heavy hoffer

/-! ### In the middle of a release -/

/-- A node in the middle of a release, with blocks that are still to be handed in and blocks whose
orphans are still to be released.  Nothing fails, nothing is lost, and all these blocks have a stored
parent, or are stored themselves. -/
structure Clearing (n : Node) (rest : List Block) (stack : List BlockId) : Prop where
  sound : n.Sound
  orderly : n.Orderly
  apart : n.Apart rest
  harmless : n.store.faults.Harmless
  lossless : n.store.faults.lostBlocks = []
  stack_stored : ∀ q ∈ stack, n.store.blocks.contains q = true
  rest_stored : ∀ c ∈ rest, n.store.blocks.contains c.parent = true

namespace Clearing

theorem take (h : n.Clearing [] (q :: stack)) :
    (n.takeOrphans q).2.Clearing (n.takeOrphans q).1 stack := by
  have hchain := sameChain_takeOrphans n q
  obtain ⟨htaken, -, horder, -⟩ := h.orderly.takeOrphans q
  have hstore := hchain.store
  refine ⟨Step.sound (.aside hchain) h.sound, horder, h.orderly.apart_takeOrphans q,
    hstore ▸ h.harmless, hstore ▸ h.lossless, fun r hr => ?_, fun c hc => ?_⟩
  · rw [hstore]
    exact h.stack_stored r (List.mem_cons_of_mem _ hr)
  · rw [htaken] at hc
    rw [hstore, of_decide_eq_true (List.mem_filter.1 hc).2]
    exact h.stack_stored q List.mem_cons_self

/-- **A released block is answered for good.**  Its parent is stored, so it is not held again. -/
theorem passes (h : n.Clearing (b :: rest) stack) : Handing.Passes ⟨n, b⟩ := by
  obtain ⟨result, hanswer⟩ := Handing.exists_ok (h := ⟨n, b⟩) h.sound h.harmless
  have himport : n.importOne b = (.ok result, (n.importOne b).2) := Prod.ext hanswer rfl
  rcases waiting_importOne_or h.sound himport with ⟨hwaiting, hpending⟩ | hmissing
  · exact ⟨⟨result, hanswer, hpending⟩, hwaiting⟩
  · obtain ⟨sb, hsb⟩ := Table.contains_iff.1 (h.rest_stored b List.mem_cons_self)
    rw [Store.getBlock_of_readable ⟨h.harmless.2.2, h.lossless⟩, hsb] at hmissing
    cases hmissing

theorem hand (h : n.Clearing (b :: rest) stack) (himport : n.importOne b = (.ok result, n₁)) :
    n₁.Clearing rest (if result.isAccepted then b.id :: stack else stack) := by
  have hrun := run_of_importOne h.sound.wellFormed himport
  have hfaults : n₁.store.faults = n.store.faults := hrun.faults_eq
  have horder := h.orderly.importOne b
  have hapart := h.apart.importOne h.orderly
  rw [himport] at horder hapart
  exact ⟨hrun.sound h.sound, horder, hapart, hfaults ▸ h.harmless, hfaults ▸ h.lossless,
    forall_mem_pushed (fun q hq => hrun.contains (h.stack_stored q hq))
      (contains_of_accepted h.sound himport),
    fun c hc => hrun.contains (h.rest_stored c (List.mem_cons_of_mem _ hc))⟩

end Clearing

/-! ### What is handed in -/

/-- What a release does from some moment on, with blocks that are still to be handed in and blocks
whose orphans are still to be released. -/
structure Clears (n : Node) (rest : List Block) (stack : List BlockId) (log : List Handing)
    (n' : Node) : Prop where
  passes : ∀ h ∈ log, h.Passes
  handed : ∀ c ∈ rest, c ∈ log.map Handing.block
  known : ∀ c ∈ log.map Handing.block, c ∈ rest ∨ c ∈ n.waiting
  nodup : (log.map fun h => h.block.id).Nodup
  left : n'.waiting = n.waiting.filter fun c => c ∉ log.map Handing.block
  closed : ∀ c ∈ n'.waiting, c.parent ∉ stack ∧ ∀ h ∈ log, h.Accepts → h.block.id ≠ c.parent
  ordered : ∀ {before h after}, log = before ++ h :: after →
    h.block ∈ rest ∨ h.block.parent ∈ stack ∨ ∃ g ∈ before, g.Accepts ∧ g.block.id = h.block.parent

namespace Clears

theorem done (n : Node) : n.Clears [] [] [] n where
  passes _ hh := absurd hh List.not_mem_nil
  handed _ hc := absurd hc List.not_mem_nil
  known _ hc := absurd hc List.not_mem_nil
  nodup := List.nodup_nil
  left := by simp
  closed _ _ := ⟨List.not_mem_nil, fun _ hh => absurd hh List.not_mem_nil⟩
  ordered heq := by simp at heq

theorem take (hn : n.Orderly)
    (h : (n.takeOrphans q).2.Clears (n.takeOrphans q).1 stack log n') :
    n.Clears [] (q :: stack) log n' := by
  obtain ⟨htaken, hleft, -, -⟩ := hn.takeOrphans q
  refine ⟨h.passes, fun _ hc => absurd hc List.not_mem_nil, fun c hc => ?_, h.nodup, ?_,
    fun c hc => ?_, fun heq => ?_⟩
  · right
    rcases h.known c hc with hin | hin
    · rw [htaken] at hin
      exact List.mem_of_mem_filter hin
    · rw [hleft] at hin
      exact List.mem_of_mem_filter hin
  · rw [h.left, hleft, List.filter_filter]
    refine List.filter_congr fun c hc => ?_
    -- an orphan that waits for the block is handed in
    by_cases hq : c.parent = q
    · have hhanded : c ∈ log.map Handing.block := by
        refine h.handed c ?_
        rw [htaken]
        exact List.mem_filter.2 ⟨hc, decide_eq_true hq⟩
      simp [hq, hhanded]
    · simp [hq]
  · obtain ⟨hoff, haccepted⟩ := h.closed c hc
    refine ⟨fun hmem => ?_, haccepted⟩
    rw [h.left, hleft] at hc
    have hq := of_decide_eq_true (List.mem_filter.1 (List.mem_of_mem_filter hc)).2
    exact (List.mem_cons.1 hmem).elim hq hoff
  · rcases h.ordered heq with hin | hin | hex
    · rw [htaken] at hin
      rw [of_decide_eq_true (List.mem_filter.1 hin).2]
      exact Or.inr (Or.inl List.mem_cons_self)
    · exact Or.inr (Or.inl (List.mem_cons_of_mem _ hin))
    · exact Or.inr (Or.inr hex)

theorem hand (hapart : n.Apart (b :: rest)) (hpasses : Handing.Passes ⟨n, b⟩)
    (himport : n.importOne b = (.ok result, n₁))
    (h : n₁.Clears rest (if result.isAccepted then b.id :: stack else stack) log n') :
    n.Clears (b :: rest) stack (⟨n, b⟩ :: log) n' := by
  have hwaiting : n₁.waiting = n.waiting := by
    have hwaiting := hpasses.waiting_eq
    rwa [Handing.after, himport] at hwaiting
  have haccepts : Handing.Accepts ⟨n, b⟩ ↔ result.isAccepted = true := by
    simp [Handing.Accepts, Handing.answer, himport]
  have hstack : ∀ q ∈ stack, q ∈ if result.isAccepted then b.id :: stack else stack := by
    intro q hq
    split
    · exact List.mem_cons_of_mem _ hq
    · exact hq
  obtain ⟨hnew, -⟩ := List.nodup_cons.1 hapart.nodup
  refine ⟨List.forall_mem_cons.2 ⟨hpasses, h.passes⟩, fun c hc => ?_, fun c hc => ?_, ?_, ?_,
    fun c hc => ?_, fun {before x after} heq => ?_⟩
  · rcases List.mem_cons.1 hc with rfl | hc
    · exact List.mem_cons_self
    · exact List.mem_cons_of_mem _ (h.handed c hc)
  · rcases List.mem_cons.1 hc with rfl | hc
    · exact Or.inl List.mem_cons_self
    · exact (h.known c hc).imp (List.mem_cons_of_mem _) fun hin => hwaiting ▸ hin
  · refine List.nodup_cons.2 ⟨fun hid => ?_, h.nodup⟩
    obtain ⟨x, hx, hid : x.block.id = b.id⟩ := List.mem_map.1 hid
    rcases h.known x.block (List.mem_map_of_mem hx) with hin | hin
    · exact hnew (hid ▸ List.mem_map_of_mem hin)
    · rw [hwaiting] at hin
      exact hapart.disjoint b List.mem_cons_self (hid ▸ List.mem_map_of_mem hin)
  · rw [h.left, hwaiting]
    refine List.filter_congr fun c hc => ?_
    have hne : c ≠ b := by
      rintro rfl
      exact hapart.not_mem hc
    simp [hne]
  · obtain ⟨hoff, haccepted⟩ := h.closed c hc
    refine ⟨fun hmem => hoff (hstack _ hmem), List.forall_mem_cons.2 ⟨fun hb hid => ?_, haccepted⟩⟩
    rw [if_pos (haccepts.1 hb), ← hid] at hoff
    exact hoff List.mem_cons_self
  · rcases List.cons_eq_append_iff.1 heq with ⟨rfl, hrest⟩ | ⟨earlier, rfl, hrest⟩
    · cases hrest
      exact Or.inl List.mem_cons_self
    · rcases h.ordered hrest with hin | hin | ⟨g, hg, hex⟩
      · exact Or.inl (List.mem_cons_of_mem _ hin)
      · right
        split at hin
        · rename_i haccepted
          rcases List.mem_cons.1 hin with hparent | hin
          · exact Or.inr ⟨_, List.mem_cons_self, haccepts.2 haccepted, hparent.symm⟩
          · exact Or.inl hin
        · exact Or.inl hin
      · exact Or.inr (Or.inr ⟨g, List.mem_cons_of_mem _ hg, hex⟩)

end Clears

/-- **A cascade hands in what is released and nothing else**, by induction over its steps. -/
theorem Cascade.clears (h : Cascade rest stack n log ending n') (hn : n.Clearing rest stack) :
    ending = .ok () ∧ n.Clears rest stack log n' := by
  induction h with
  | done n => exact ⟨rfl, .done n⟩
  | take _ ih =>
    obtain ⟨hending, hclears⟩ := ih hn.take
    exact ⟨hending, hclears.take hn.orderly⟩
  | hand himport _ ih =>
    obtain ⟨hending, hclears⟩ := ih (hn.hand himport)
    exact ⟨hending, .hand hn.apart hn.passes himport hclears⟩
  | @fail n n' b rest stack e himport =>
    obtain ⟨result, hok⟩ := Handing.exists_ok (h := ⟨n, b⟩) hn.sound hn.harmless
    rw [Handing.answer, himport] at hok
    cases hok

/-! ### The orphans that became reachable -/

/-- The orphans that a block sets free: those that wait for it, and those that wait for one of these
that was accepted. -/
inductive Freed (waiting : List Block) (accepted : Block → Prop) (id : BlockId) : Block → Prop
  | direct {c : Block} (hc : c ∈ waiting) (hparent : c.parent = id) : Freed waiting accepted id c
  | through {c d : Block} (hd : Freed waiting accepted id d) (haccepted : accepted d)
      (hc : c ∈ waiting) (hparent : c.parent = d.id) : Freed waiting accepted id c

/-- **A release lets go exactly the orphans that a block sets free.**  It ends, each of them is handed
in once, after its parent, and is answered for good; the others wait as before. -/
structure Frees (n : Node) (id : BlockId) (log : List Handing) (n' : Node) : Prop where
  ends : ∃ rounds, rounds ≤ n.waiting.length + 1 ∧
    EndsIn releaseRound rounds ([id], n) (.ok (), n')
  exact : ∀ c, c ∈ log.map Handing.block ↔
    Freed n.waiting (fun d => ∃ h ∈ log, h.block = d ∧ h.Accepts) id c
  once : (log.map fun h => h.block.id).Nodup
  ordered : ∀ {before h after}, log = before ++ h :: after →
    h.block.parent = id ∨ ∃ g ∈ before, g.Accepts ∧ g.block.id = h.block.parent
  passes : ∀ h ∈ log, h.Passes
  left : n'.waiting = n.waiting.filter fun c => c ∉ log.map Handing.block

namespace Clears

variable (h : n.Clears [] [id] log n')

include h

theorem ordered_of_singleton {before after : List Handing} {x : Handing}
    (heq : log = before ++ x :: after) :
    x.block.parent = id ∨ ∃ g ∈ before, g.Accepts ∧ g.block.id = x.block.parent := by
  rcases h.ordered heq with hin | hin | hex
  · exact absurd hin List.not_mem_nil
  · exact Or.inl (List.mem_singleton.1 hin)
  · exact Or.inr hex

theorem mem_waiting (hc : c ∈ log.map Handing.block) : c ∈ n.waiting :=
  (h.known c hc).resolve_left List.not_mem_nil

theorem freed {before after : List Handing} (heq : log = before ++ after) :
    ∀ x ∈ before, Freed n.waiting (fun d => ∃ h ∈ log, h.block = d ∧ h.Accepts) id x.block := by
  induction before using List.reverseRecOn generalizing after with
  | nil => exact List.forall_mem_nil _
  | append_singleton before x ih =>
    rw [List.append_assoc, List.singleton_append] at heq
    have hbefore := ih heq
    have hin : ∀ g ∈ before, g ∈ log := fun g hg => heq ▸ List.mem_append_left _ hg
    have hwaits : x.block ∈ n.waiting := h.mem_waiting (List.mem_map_of_mem
      (heq ▸ List.mem_append_right _ List.mem_cons_self))
    refine List.forall_mem_append.2 ⟨hbefore, List.forall_mem_singleton.2 ?_⟩
    rcases h.ordered_of_singleton heq with hparent | ⟨g, hg, haccepts, hparent⟩
    · exact .direct hwaits hparent
    · exact .through (hbefore g hg) ⟨g, hin g hg, rfl, haccepts⟩ hwaits hparent.symm

/-- What is set free is handed in: what waits on has no accepted parent. -/
theorem mem_of_freed
    (hfreed : Freed n.waiting (fun d => ∃ h ∈ log, h.block = d ∧ h.Accepts) id c) :
    c ∈ log.map Handing.block := by
  have hstays : ∀ {a}, a ∈ n.waiting → a ∉ log.map Handing.block → a ∈ n'.waiting := by
    intro a ha hnot
    rw [h.left]
    exact List.mem_filter.2 ⟨ha, decide_eq_true hnot⟩
  by_contra hnot
  cases hfreed with
  | direct hc hparent =>
    exact (h.closed c (hstays hc hnot)).1 (List.mem_singleton.2 hparent)
  | through _ haccepted hc hparent =>
    obtain ⟨x, hx, rfl, haccepts⟩ := haccepted
    exact (h.closed c (hstays hc hnot)).2 x hx haccepts hparent.symm

end Clears

/-- **A release of the orphans of a stored block lets go exactly what became reachable.** -/
theorem Clearing.frees (h : n.Clearing [] [id]) :
    ∃ n', n.releaseOrphans id = (.ok (), n') ∧ n.Frees id (n.releaseHandings id) n' := by
  obtain ⟨hending, hclears⟩ := (h.orderly.cascade_releaseOrphans id).clears h
  have hrelease : n.releaseOrphans id = (.ok (), (n.releaseOrphans id).2) := Prod.ext hending rfl
  obtain ⟨rounds, hle, hends⟩ := h.orderly.releaseLoop_ends id
  rw [hrelease] at hends
  refine ⟨_, hrelease, ⟨rounds, hle, hends⟩, fun c => ⟨fun hc => ?_, hclears.mem_of_freed⟩,
    hclears.nodup, hclears.ordered_of_singleton, hclears.passes, hclears.left⟩
  obtain ⟨x, hx, rfl⟩ := List.mem_map.1 hc
  exact hclears.freed (List.append_nil _).symm x hx

/-! ### Imports and blocks of one's own -/

section Acceptance

variable (hn : n.Orderly) (hsound : n.Sound) (hharmless : n.store.faults.Harmless)
  (hlost : n.store.faults.lostBlocks = [])

include hn hsound hharmless hlost

/-- **An accepted block frees the orphans that became reachable**, and the import succeeds. -/
theorem frees_importBlock (h : n.importOne b = (.ok result, n₁))
    (haccepted : result.isAccepted = true) :
    ∃ n', n.importBlock b = (.ok result, n') ∧ n₁.Frees b.id (n₁.releaseHandings b.id) n' := by
  have hrun := run_of_importOne hsound.wellFormed h
  have hfaults : n₁.store.faults = n.store.faults := hrun.faults_eq
  have hclearing : n₁.Clearing [] [b.id] :=
    ⟨hrun.sound hsound, (handled_of_importOne h).orderly hn, apart_nil n₁, hfaults ▸ hharmless,
      hfaults ▸ hlost, List.forall_mem_singleton.2 (contains_of_accepted hsound h haccepted),
      List.forall_mem_nil _⟩
  obtain ⟨n', hrelease, hfrees⟩ := hclearing.frees
  refine ⟨n', ?_, hfrees⟩
  simp [importBlock, h, haccepted, hrelease]

/-- **A block of one's own frees the orphans that became reachable.** -/
theorem frees_submitTip {tip : ChainTip} {outcome : Outcome} (hheavy : n.Heavy tip)
    {update : PoolUpdate} (hoffer : (n.offer tip).1 = .ok (outcome, update)) :
    ∃ n₁ n', n.submitTip tip = (.ok outcome, n₁) ∧ n₁.waiting = n.waiting ∧
      n₁ = (n.offer tip).2.updatePool update ∧ n₁.releaseOrphans tip.id = (.ok (), n') ∧
      n₁.Frees tip.id (n₁.releaseHandings tip.id) n' := by
  have horphans := (sameMemory_made n tip update).orphans
  have hrun := run_made hheavy update
  have hchain := sameChain_updatePool (n.offer tip).2 update
  have hfaults : ((n.offer tip).2.updatePool update).store.faults = n.store.faults :=
    hrun.faults_eq
  have hclearing : ((n.offer tip).2.updatePool update).Clearing [] [tip.id] := by
    refine ⟨hrun.sound hsound, orderly_of_orphans_eq horphans hn, apart_nil _, hfaults ▸ hharmless,
      hfaults ▸ hlost, List.forall_mem_singleton.2 ?_, List.forall_mem_nil _⟩
    rw [hchain.store]
    exact contains_of_offer hsound hheavy hoffer
  obtain ⟨n', hrelease, hfrees⟩ := hclearing.frees
  exact ⟨_, n', submitTip_eq_ok hoffer, waiting_of_orphans_eq horphans, rfl, hrelease, hfrees⟩

end Acceptance

end Node

end LedgerChain
