import LedgerChain.Proofs.Tree.Blocks
import LedgerChain.Proofs.Tree.Finalize
import LedgerChain.Sealing.Engine
import Mathlib.Algebra.GroupWithZero.Nat

/-!
# Weights along a path

The cumulative weight of a block is that of any block on its lineage and the weights of the blocks in
between (`WellFormed.rises`).  The blocks in between have the weights that their seals say
(`ChainTree.WeighedBy`); what the lowest block weighs, and what lies below it, plays no part.

So cumulative weights can be added up over several trees, each of which goes on where the one before
ends (`Rises.trans`).
-/

namespace LedgerChain

namespace Engine

variable {engine : Engine} {b : Block} {bs cs : List Block} {w : Nat}

/-- The weight of some blocks together.  A block whose seal does not say a weight adds nothing. -/
def weightOf (engine : Engine) (bs : List Block) : Nat :=
  (bs.map fun b => (engine.weight b.header).toOption.getD 0).sum

theorem weightOf_nil : engine.weightOf [] = 0 := rfl

theorem weightOf_singleton (h : engine.weight b.header = .ok w) : engine.weightOf [b] = w := by
  simp [weightOf, h, Except.toOption]

theorem weightOf_append : engine.weightOf (bs ++ cs) = engine.weightOf bs + engine.weightOf cs := by
  simp [weightOf]

theorem weightOf_congr (h : bs.map Block.header = cs.map Block.header) :
    engine.weightOf bs = engine.weightOf cs := by
  have hsum := congrArg
    (fun hs : List Header => (hs.map fun h => (engine.weight h).toOption.getD 0).sum) h
  simpa [weightOf, Function.comp_def] using hsum

end Engine

variable [Crypto] {engine : Engine} {bs cs : List Block}

/-- The blocks lead from one block up to another one, top first and without the lower one, and the
cumulative weights of the two differ by what these blocks weigh. -/
structure Rises (engine : Engine) (below : TreeEntry) (bs : List Block) (e : TreeEntry) : Prop where
  chain : (bs ++ [below.tip.block]).IsChain Block.On
  head?_eq : (bs ++ [below.tip.block]).head? = some e.tip.block
  heavy : ∀ b ∈ bs, ∃ w, engine.weight b.header = .ok w ∧ 1 ≤ w
  weight_eq : e.cumulativeWeight = below.cumulativeWeight + engine.weightOf bs

namespace Rises

variable {below mid e : TreeEntry}

theorem still (hblock : e.tip.block = below.tip.block)
    (hweight : e.cumulativeWeight = below.cumulativeWeight) : Rises engine below [] e where
  chain := List.IsChain.singleton _
  head?_eq := by rw [hblock]; rfl
  heavy _ hb := absurd hb List.not_mem_nil
  weight_eq := hweight

theorem single (hon : e.tip.block.On below.tip.block)
    (hweight : engine.weight e.tip.header = .ok e.tip.weight) (hpos : 1 ≤ e.tip.weight)
    (hsum : e.cumulativeWeight = below.cumulativeWeight + e.tip.weight) :
    Rises engine below [e.tip.block] e where
  chain := by simpa using hon
  head?_eq := rfl
  heavy := List.forall_mem_singleton.2 ⟨_, hweight, hpos⟩
  weight_eq := by rw [hsum, Engine.weightOf_singleton hweight]

theorem trans (h : Rises engine below bs mid) (h' : Rises engine mid cs e) :
    Rises engine below (cs ++ bs) e where
  chain := by
    obtain ⟨hupper, -, hjoin⟩ := List.isChain_append.1 h'.chain
    rw [List.append_assoc]
    refine List.isChain_append.2 ⟨hupper, h.chain, fun x hx y hy => hjoin x hx y ?_⟩
    rwa [h.head?_eq] at hy
  head?_eq := by
    rw [List.append_assoc]
    cases cs with
    | nil =>
      have hsame : mid.tip.block = e.tip.block := Option.some.inj h'.head?_eq
      rw [List.nil_append, h.head?_eq, hsame]
    | cons b rest => exact h'.head?_eq
  heavy := List.forall_mem_append.2 ⟨h'.heavy, h.heavy⟩
  weight_eq := by
    rw [h'.weight_eq, h.weight_eq, Engine.weightOf_append]
    omega

theorem weightOf_eq_zero_iff (h : Rises engine below bs e) : engine.weightOf bs = 0 ↔ bs = [] := by
  constructor
  · intro hzero
    cases bs with
    | nil => rfl
    | cons b rest =>
      obtain ⟨w, hw, hpos⟩ := h.heavy b List.mem_cons_self
      rw [← List.singleton_append, Engine.weightOf_append, Engine.weightOf_singleton hw] at hzero
      omega
  · rintro rfl
    exact Engine.weightOf_nil

end Rises

namespace ChainTree

variable {t t' u : ChainTree} {id a b : BlockId} {e f below : TreeEntry} {tip : ChainTip}

/-- The blocks above the root have the weights that their seals say. -/
def WeighedBy (engine : Engine) (t : ChainTree) : Prop :=
  ∀ id e, t.find? id = some e → id ≠ t.root → engine.weight e.tip.header = .ok e.tip.weight

theorem weighedBy_ofRoot (tip : ChainTip) (w : Nat) : (ofRoot tip w).WeighedBy engine := by
  intro id e he hne
  rw [find?_ofRoot, if_neg (show id ≠ tip.id from hne)] at he
  cases he

theorem WeighedBy.graft (h : t.WeighedBy engine) (hbelow : t.find? tip.parent = some below)
    (hweight : engine.weight tip.header = .ok tip.weight) : (t.graft tip below).WeighedBy engine := by
  intro id f hf hne
  obtain ⟨-, rfl⟩ | ⟨e, -, he, htip, -⟩ := find?_of_find?_graft hbelow hf
  · exact hweight
  · rw [htip]
    exact h id e he hne

theorem WeighedBy.of_isUpperPart (h : t.WeighedBy engine) (hwf : t.WellFormed)
    (hup : t.IsUpperPart id t') : t'.WeighedBy engine := by
  intro b e he hne
  rw [hup.find?] at he
  split at he
  · rename_i hmem
    refine h b e he ?_
    rintro rfl
    -- nothing but the root is on the lineage of the root
    rw [hwf.lineage_root, List.mem_singleton] at hmem
    exact hne (hmem.symm.trans hup.root.symm)
  · cases he

/-- **The blocks of a path make up for the difference in weight.** -/
theorem WellFormed.rises (h : t.WellFormed) (hweighed : t.WeighedBy engine) (hpos : t.Weighted)
    (hab : a ∈ t.lineage b) (ha : t.find? a = some below) (hb : t.find? b = some e) :
    Rises engine below (t.pathBlocks a b) e := by
  refine h.path_induct (P := fun _ e bs => Rises engine below bs e) ha (.still rfl rfl)
    (fun {b f p bs} hf hne hp ih => ?_) hab hb
  obtain ⟨p', hp', -, hheight, hsum⟩ := h.link hf hne
  rw [hp] at hp'
  cases hp'
  exact ih.trans
    (.single ⟨(h.id_eq hp).symm, hheight⟩ (hweighed b f hf hne) (hpos b f hf hne) hsum)

/-- Trees with the same root that have the same headers under their identifiers have the same path
from the root to a block, up to headers. -/
theorem WellFormed.map_header_pathBlocks (ht : t.WellFormed) (hu : u.WellFormed)
    (hroot : u.root = t.root)
    (hsame : ∀ {id e f}, t.find? id = some e → u.find? id = some f → f.tip.header = e.tip.header)
    (he : t.find? b = some e) (hf : u.find? b = some f) :
    (u.pathBlocks t.root b).map Block.header = (t.pathBlocks t.root b).map Block.header := by
  obtain ⟨r, hr⟩ := ht.root_mem
  refine ht.path_induct (P := fun b _ bs => ∀ f, u.find? b = some f →
    (u.pathBlocks t.root b).map Block.header = bs.map Block.header) hr (fun f hf => ?_)
    (fun {b e p bs} he hne _ ih f hf => ?_) (ht.root_mem_lineage he) he f hf
  · rw [hu.pathBlocks_self hf]
  · have hheader := hsame he hf
    have hne' : b ≠ u.root := hroot ▸ hne
    obtain ⟨p, hp, -⟩ := hu.link hf hne'
    have hparent : f.parent = e.parent := congrArg (fun h : Header => h.parent) hheader
    rw [hparent] at hp
    rw [hu.pathBlocks_of_ne hf hne' (Ne.symm hne), List.map_cons, List.map_cons, hparent, ih p hp]
    exact congrArg (· :: _) hheader

omit [Crypto] in
theorem exists_of_mem_pathBlocks {x : Block} (h : x ∈ t.pathBlocks a b) :
    ∃ id e, t.find? id = some e ∧ e.tip.block = x := by
  obtain ⟨id, -, hid⟩ := List.mem_filterMap.1 h
  obtain ⟨e, he, rfl⟩ := Option.map_eq_some_iff.1 hid
  exact ⟨id, e, he, rfl⟩

end ChainTree

end LedgerChain
