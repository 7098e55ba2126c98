import LedgerChain.Proofs.Lifetime.Session
import LedgerChain.Proofs.Node.Weights

/-!
# Sums in the life of a node

What a node does is said with sums of natural numbers.  It is the same with sums of any other kind,
in 64 and 128 bits in particular, for as long as no block of the tree has the greatest height: blocks
weigh at most as much as fits in 64 bits, so weights stay far below the greatest one
(`Lifetime.weight_le_height_mul`, `Lifetime.consider_eq_of_low`, `Lifetime.heights_eq_of_low`).  What
becomes final is the same where the height of the root and the finality depth fit together.
-/

namespace LedgerChain

/-! ### Trees with room -/

namespace ChainTree

/-- On every block there is room for another one of some weight: both sums fit. -/
def Roomy (t : ChainTree) (w : Nat) : Prop :=
  ∀ id e, t.find? id = some e → e.height + 1 < 2 ^ 64 ∧ e.cumulativeWeight + w < 2 ^ 128

variable {t : ChainTree}

theorem Roomy.rootHeight_lt {w : Nat} (h : t.Roomy w) : t.rootHeight + 1 < 2 ^ 64 := by
  unfold rootHeight
  cases hr : t.find? t.root with
  | none => decide
  | some r => exact (h _ r hr).1

variable [Crypto] [Sums] {tip : ChainTip}

theorem Roomy.attach_eq (h : t.Roomy tip.weight) : t.attach tip = @attach _ .unbounded t tip := by
  unfold attach
  cases hbelow : t.find? tip.parent with
  | none => rfl
  | some below =>
    obtain ⟨hheight, hweight⟩ := h _ below hbelow
    simp only [Sums.addHeights_eq hheight, Sums.addWeights_eq hweight]
    rfl

end ChainTree

namespace ForkChoice

variable [Crypto] [Sums] {f : ForkChoice} {tip : ChainTip}

theorem consider_eq_of_roomy (h : f.tree.Roomy tip.weight) :
    f.consider tip = @consider _ .unbounded f tip := by
  unfold consider
  rw [h.attach_eq, Sums.addHeights_eq h.rootHeight_lt]
  rfl

omit [Crypto] in
theorem advanceRoot_eq_of_lt (h : f.tree.rootHeight + f.finalityDepth < 2 ^ 64) :
    f.advanceRoot = @advanceRoot .unbounded f := by
  unfold advanceRoot
  simp only [Sums.addHeights_eq h, Sums.addHeights_unbounded, Sums.subHeights_unbounded]
  by_cases hlow : f.bestHeight ≤ f.tree.rootHeight + f.finalityDepth
  · rw [if_pos hlow, if_pos hlow]
  · rw [if_neg hlow, if_neg hlow, Sums.subHeights_eq (by omega)]

end ForkChoice

/-! ### Weights -/

namespace Engine

variable {engine : Engine} {h : Header} {w : Nat}

theorem weight_lt (hw : engine.weight h = .ok w) : w < 2 ^ 64 := by
  cases engine with
  | work rule =>
    cases hproof : (Sealing.readProof h.sealedBy : Except SealError WorkProof) with
    | error e => simp [weight, WorkRule.weight, hproof, Bind.bind, Except.bind] at hw
    | ok proof =>
      cases hw.symm.trans (WorkRule.weight_eq hproof)
      exact UInt64.toNat_lt _
  | authority rule =>
    cases hw
    decide

theorem weightOf_le (engine : Engine) (bs : List Block) :
    engine.weightOf bs ≤ (2 ^ 64 - 1) * bs.length := by
  induction bs with
  | nil => exact Nat.zero_le _
  | cons b rest ih =>
    have hb : engine.weightOf [b] ≤ 2 ^ 64 - 1 := by
      cases hw : engine.weight b.header with
      | error e => simp [weightOf, hw, Except.toOption]
      | ok w =>
        rw [weightOf_singleton hw]
        exact Nat.le_sub_one_of_lt (weight_lt hw)
    rw [← List.singleton_append, weightOf_append, List.length_append, List.length_singleton]
    omega

end Engine

namespace Rises

variable [Crypto] {engine : Engine} {below e : TreeEntry} {bs : List Block}

theorem height_eq (h : Rises engine below bs e) : e.height = below.height + bs.length := by
  have hlist : ∀ (bs : List Block) (top : Block), (bs ++ [below.tip.block]).IsChain Block.On →
      (bs ++ [below.tip.block]).head? = some top →
      top.height = below.tip.block.height + bs.length := by
    intro bs
    induction bs with
    | nil =>
      rintro top - hhead
      cases hhead
      rfl
    | cons b rest ih =>
      intro top hchain hhead
      cases hhead
      rw [List.cons_append, List.isChain_cons] at hchain
      obtain ⟨next, hnext⟩ := Option.isSome_iff_exists.1
        (List.isSome_head?.2 (List.append_ne_nil_of_right_ne_nil rest (List.cons_ne_nil _ _)))
      rw [(hchain.1 next hnext).2, ih next hchain.2 hnext, List.length_cons]
      omega
  exact hlist bs _ h.chain h.head?_eq

theorem weight_le (h : Rises engine below bs e)
    (hbelow : below.cumulativeWeight ≤ (2 ^ 64 - 1) * below.height) :
    e.cumulativeWeight ≤ (2 ^ 64 - 1) * e.height := by
  have hsum := engine.weightOf_le bs
  rw [h.weight_eq, h.height_eq]
  omega

end Rises

namespace Lifetime

variable [Crypto] {params : Params} {initial : State} {events : List LifeEvent} {n : Node}
  {id : BlockId} {e : TreeEntry}

/-- **Weights stay within what heights allow**: the cumulative weight of a block is at most its height
times the greatest weight of a block. -/
theorem weight_le_height_mul (hlife : run params initial events = running n)
    (he : n.forkChoice.tree.find? id = some e) :
    e.cumulativeWeight ≤ (2 ^ 64 - 1) * e.height := by
  obtain ⟨hn, -⟩ := (sound params initial events).node hlife
  obtain ⟨before, pool, session, n₀, s, -, -, hstart, hmoves⟩ := exists_last_start hlife
  have hbefore := sound params initial before
  obtain ⟨hn₀, -, -⟩ := Node.sound_of_start hbefore.journaled hbefore.weighed hstart
  obtain ⟨hw, finalized, hfin⟩ := hmoves.finalizes hn₀ (Node.weighed_of_start hstart)
  obtain ⟨r, r', hr, hr', hrises⟩ := hfin.rises
  have hroot := Node.weight_root_of_start hstart hr
  have hwf := hn.wellFormed
  have habove := hwf.tree.rises hw hwf.weighted (hwf.tree.root_mem_lineage he) hr' he
  exact habove.weight_le (hrises.weight_le (by omega))

/-- **How sums are taken makes no difference to a node** as long as its tree has no block of the
greatest height, whatever block it considers; nor to what it finalizes, as long as the height up to
which the root stays where it is fits too. -/
theorem consider_eq_of_low [Sums] (hlife : run params initial events = running n)
    (hlow : ∀ id e, n.forkChoice.tree.find? id = some e → e.height < 2 ^ 64 - 1) :
    (∀ tip, n.engine.weight tip.header = .ok tip.weight →
      n.forkChoice.consider tip = @ForkChoice.consider _ .unbounded n.forkChoice tip) ∧
    (n.forkChoice.tree.rootHeight + n.forkChoice.finalityDepth < 2 ^ 64 →
      n.forkChoice.advanceRoot = @ForkChoice.advanceRoot .unbounded n.forkChoice) := by
  refine ⟨fun tip hw => ForkChoice.consider_eq_of_roomy fun id e he => ?_,
    ForkChoice.advanceRoot_eq_of_lt⟩
  have hheight := hlow id e he
  have hweight := weight_le_height_mul hlife he
  have htip := Engine.weight_lt hw
  exact ⟨by omega, by omega⟩

/-- Nor does it for the tests that an import makes by itself: whether the height of a block is that of
its parent and one, and whether a block without a parent is too low to be held. -/
theorem heights_eq_of_low (hlife : run params initial events = running n)
    (hlow : ∀ id e, n.forkChoice.tree.find? id = some e → e.height < 2 ^ 64 - 1) (b : Block) :
    (∀ id e, n.forkChoice.tree.find? id = some e →
      (validateBlock n.engine b e.tip = .error (.malformed (.wrongHeight b.height e.height)) ↔
        b.header.height ≠ e.tip.header.height + 1)) ∧
    ∃ r, n.forkChoice.tree.find? n.forkChoice.tree.root = some r ∧
      (b.height ≤ n.forkChoice.tree.rootHeight + 1 ↔
        b.header.height ≤ r.tip.header.height + 1) := by
  obtain ⟨hn, -⟩ := (sound params initial events).node hlife
  constructor
  · intro id e he
    exact validateBlock_wrongHeight_iff.trans (not_congr (and_iff_left (hlow id e he)))
  · obtain ⟨r, hr⟩ := hn.wellFormed.tree.root_mem
    refine ⟨r, hr, ?_⟩
    rw [ChainTree.rootHeight_eq hr]
    exact height_le_succ_iff.trans (or_iff_left (Nat.ne_of_lt (hlow _ r hr)))

end Lifetime

end LedgerChain
