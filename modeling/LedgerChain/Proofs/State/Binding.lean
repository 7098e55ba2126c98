import LedgerChain.Proofs.Crypto.Transparent
import LedgerChain.Proofs.State.Form
import Mathlib.Data.Set.Function

/-!
# The digest of a state binds its entries

What is hashed on the way to a digest is the form of every entry, behind a zero byte, and every pair
of neighbours that are joined, behind a one (`State.hashed`); the digest depends on the hash function
at no other byte string (`State.digest_congr`).

The layers are read as a forest whose trees grow together until one is left (`Merkle.exists_tree`).
If the hash function tells apart what is hashed, the digest of a tree determines the tree: the first
byte tells a leaf from an inner node, and the two digests below a node have fixed lengths
(`Merkle.Tree.eq_of_digest_eq`).  Its leaves are the entries, so states with equal digests have equal
entries, whatever their numbers (`State.entries_eq_of_digest_eq`).
-/

namespace LedgerChain

namespace Merkle

/-- What is hashed for a leaf. -/
def leafBytes (pair : Bytes × Bytes) : Bytes := 0x00 :: Wire.encode pair

/-- What is hashed for an inner node. -/
def joinBytes (left right : Digest) : Bytes := 0x01 :: (left.toList ++ right.toList)

/-- What is hashed to get to the layer above. -/
def hashedAbove : List Digest → List Bytes
  | left :: right :: rest => joinBytes left right :: hashedAbove rest
  | _ => []

theorem joinBytes_inj {left right left' right' : Digest}
    (h : joinBytes left right = joinBytes left' right') : left = left' ∧ right = right' := by
  obtain ⟨hleft, hright⟩ := List.append_inj (List.tail_eq_of_cons_eq h)
    (left.length_toList.trans left'.length_toList.symm)
  exact ⟨Buffer.ext hleft, Buffer.ext hright⟩

section

variable [Crypto]

/-- What is hashed to go up `n` times. -/
def hashedClimbing : (n : Nat) → List Digest → List Bytes
  | 0, _ => []
  | n + 1, layer => hashedAbove layer ++ hashedClimbing n (layerAbove layer)

/-- What is hashed to get from pairs to the root over their leaves. -/
def hashed (pairs : List (Bytes × Bytes)) : List Bytes :=
  pairs.map leafBytes ++ hashedClimbing pairs.length (pairs.map leaf)

end

theorem layerAbove_congr {c c' : Crypto} {layer : List Digest}
    (h : ∀ bs ∈ hashedAbove layer, c.hash bs = c'.hash bs) :
    @layerAbove c layer = @layerAbove c' layer := by
  induction layer using layerAbove.induct with
  | case1 left right rest ih =>
    obtain ⟨hjoin, hrest⟩ := List.forall_mem_cons.1 h
    show @join c left right :: @layerAbove c rest = @join c' left right :: @layerAbove c' rest
    rw [ih hrest]
    exact congrArg (· :: _) hjoin
  | case2 layer hshort =>
    rw [@layerAbove.eq_2 c layer hshort, @layerAbove.eq_2 c' layer hshort]

theorem climb_congr {c c' : Crypto} {n : Nat} {layer : List Digest}
    (h : ∀ bs ∈ @hashedClimbing c n layer, c.hash bs = c'.hash bs) :
    @climb c n layer = @climb c' n layer := by
  induction n generalizing layer with
  | zero => rfl
  | succ n ih =>
    obtain ⟨habove, hclimb⟩ := List.forall_mem_append.1 h
    show @climb c n (@layerAbove c layer) = @climb c' n (@layerAbove c' layer)
    rw [ih hclimb, layerAbove_congr habove]

/-! ### Layers as forests -/

/-- A node of the hash tree with everything below it. -/
inductive Tree where
  | leaf (pair : Bytes × Bytes)
  | node (left right : Tree)

namespace Tree

/-- The pairs at the leaves. -/
def fringe : Tree → List (Bytes × Bytes)
  | leaf pair => [pair]
  | node left right => left.fringe ++ right.fringe

/-- The trees over a layer of trees. -/
def above : List Tree → List Tree
  | left :: right :: rest => node left right :: above rest
  | layer => layer

/-- The trees reached by going up `n` times. -/
def climb : (n : Nat) → List Tree → List Tree
  | 0, layer => layer
  | n + 1, layer => climb n (above layer)

theorem flatMap_fringe_above (layer : List Tree) :
    (above layer).flatMap fringe = layer.flatMap fringe := by
  induction layer using above.induct with
  | case1 left right rest ih =>
    simp only [above, List.flatMap_cons, fringe, ih, List.append_assoc]
  | case2 layer hshort => rw [above.eq_2 _ hshort]

theorem flatMap_fringe_climb (n : Nat) (layer : List Tree) :
    (climb n layer).flatMap fringe = layer.flatMap fringe := by
  induction n generalizing layer with
  | zero => rfl
  | succ n ih => rw [climb, ih, flatMap_fringe_above]

/-- A layer halves, and a last tree without a neighbour counts like a pair. -/
theorem length_above (layer : List Tree) : (above layer).length = (layer.length + 1) / 2 := by
  induction layer using above.induct with
  | case1 left right rest ih =>
    simp only [above, List.length_cons, ih]
    omega
  | case2 layer hshort =>
    rw [above.eq_2 _ hshort]
    rcases layer with _ | ⟨t, _ | ⟨u, rest⟩⟩
    · rfl
    · simp only [List.length_singleton]
    · exact absurd rfl (hshort t u rest)

theorem length_climb {n : Nat} {layer : List Tree} (hne : layer ≠ [])
    (hlength : layer.length ≤ n + 1) : (climb n layer).length = 1 := by
  have hpos := List.length_pos_of_ne_nil hne
  induction n generalizing layer with
  | zero => exact Nat.le_antisymm hlength hpos
  | succ n ih =>
    have habove := length_above layer
    have hpos' : 0 < (above layer).length := by omega
    exact ih (List.ne_nil_of_length_pos hpos') (by omega) hpos'

variable [Crypto]

/-- The digest of a tree. -/
def digest : Tree → Digest
  | leaf pair => Merkle.leaf pair
  | node left right => join left.digest right.digest

/-- What is hashed last. -/
def bytes : Tree → Bytes
  | leaf pair => leafBytes pair
  | node left right => joinBytes left.digest right.digest

/-- All that is hashed. -/
def hashed : Tree → List Bytes
  | leaf pair => [leafBytes pair]
  | node left right => joinBytes left.digest right.digest :: (left.hashed ++ right.hashed)

theorem digest_eq_hash (t : Tree) : t.digest = Crypto.hash t.bytes := by
  cases t <;> rfl

theorem bytes_mem_hashed (t : Tree) : t.bytes ∈ t.hashed := by
  cases t <;> exact List.mem_cons_self

theorem map_digest_above (layer : List Tree) :
    (above layer).map digest = layerAbove (layer.map digest) := by
  induction layer using above.induct with
  | case1 left right rest ih => simp only [above, List.map_cons, layerAbove, digest, ih]
  | case2 layer hshort =>
    rw [above.eq_2 _ hshort]
    rcases layer with _ | ⟨t, _ | ⟨u, rest⟩⟩
    · rfl
    · rfl
    · exact absurd rfl (hshort t u rest)

theorem map_digest_climb (n : Nat) (layer : List Tree) :
    (climb n layer).map digest = Merkle.climb n (layer.map digest) := by
  induction n generalizing layer with
  | zero => rfl
  | succ n ih => rw [climb, ih, map_digest_above, Merkle.climb]

theorem hashed_above {bs : Bytes} {layer : List Tree} (h : bs ∈ (above layer).flatMap hashed) :
    bs ∈ layer.flatMap hashed ∨ bs ∈ hashedAbove (layer.map digest) := by
  induction layer using above.induct with
  | case1 left right rest ih =>
    simp only [above, List.flatMap_cons, hashed, List.mem_append, List.mem_cons, List.map_cons,
      hashedAbove] at h ⊢
    rcases h with (rfl | h | h) | h
    · exact Or.inr (Or.inl rfl)
    · exact Or.inl (Or.inl h)
    · exact Or.inl (Or.inr (Or.inl h))
    · exact (ih h).imp (fun h => Or.inr (Or.inr h)) Or.inr
  | case2 layer hshort =>
    rw [above.eq_2 _ hshort] at h
    exact Or.inl h

theorem hashed_climb {bs : Bytes} {n : Nat} {layer : List Tree}
    (h : bs ∈ (climb n layer).flatMap hashed) :
    bs ∈ layer.flatMap hashed ∨ bs ∈ hashedClimbing n (layer.map digest) := by
  induction n generalizing layer with
  | zero => exact Or.inl h
  | succ n ih =>
    rw [hashedClimbing, ← map_digest_above, List.mem_append]
    rcases ih h with h | h
    · exact (hashed_above h).imp_right Or.inl
    · exact Or.inr (Or.inr h)

/-- A tree whose pairs fit, and in which nothing is hashed but what a set has. -/
structure Covered (all : Set Bytes) (t : Tree) : Prop where
  hashed : ∀ bs ∈ t.hashed, bs ∈ all
  fits : ∀ p ∈ t.fringe, Entries.PairFits p

variable {all : Set Bytes} {t u : Tree}

theorem Covered.left {left right : Tree} (h : (node left right).Covered all) :
    left.Covered all where
  hashed bs hbs := h.hashed bs (List.mem_cons_of_mem _ (List.mem_append_left _ hbs))
  fits p hp := h.fits p (List.mem_append_left _ hp)

theorem Covered.right {left right : Tree} (h : (node left right).Covered all) :
    right.Covered all where
  hashed bs hbs := h.hashed bs (List.mem_cons_of_mem _ (List.mem_append_right _ hbs))
  fits p hp := h.fits p (List.mem_append_right _ hp)

/-- **The digest of a tree determines the tree**, for a hash function that tells apart what is
hashed. -/
theorem eq_of_digest_eq (hinj : Set.InjOn Crypto.hash all) (ht : t.Covered all)
    (hu : u.Covered all) (h : t.digest = u.digest) : t = u := by
  induction t generalizing u with
  | leaf pair =>
    have hbytes := hinj (ht.hashed _ (bytes_mem_hashed _)) (hu.hashed _ (bytes_mem_hashed _))
      (by rwa [digest_eq_hash, digest_eq_hash] at h)
    cases u with
    | leaf pair' =>
      have hpair := Entries.canonical_pairs.write_inj (ht.fits pair List.mem_cons_self)
        (hu.fits pair' List.mem_cons_self) (List.tail_eq_of_cons_eq hbytes)
      rw [hpair]
    | node left right => exact absurd (List.head_eq_of_cons_eq hbytes) (by decide)
  | node left right ihl ihr =>
    have hbytes := hinj (ht.hashed _ (bytes_mem_hashed _)) (hu.hashed _ (bytes_mem_hashed _))
      (by rwa [digest_eq_hash, digest_eq_hash] at h)
    cases u with
    | leaf pair => exact absurd (List.head_eq_of_cons_eq hbytes) (by decide)
    | node left' right' =>
      obtain ⟨hleft, hright⟩ := joinBytes_inj hbytes
      rw [ihl ht.left hu.left hleft, ihr ht.right hu.right hright]

end Tree

variable [Crypto]

/-- **The root over some pairs is the digest of a tree over them**, in which nothing is hashed but
what is hashed on the way to the root. -/
theorem exists_tree {pairs : List (Bytes × Bytes)} (hne : pairs ≠ []) :
    ∃ t : Tree, root (pairs.map leaf) = t.digest ∧ t.fringe = pairs ∧
      ∀ bs ∈ t.hashed, bs ∈ hashed pairs := by
  have hlayer : (pairs.map Tree.leaf).map Tree.digest = pairs.map leaf := by
    rw [List.map_map]
    rfl
  have hsingle : (Tree.climb pairs.length (pairs.map Tree.leaf)).length = 1 :=
    Tree.length_climb (fun h => hne (List.map_eq_nil_iff.1 h)) (by rw [List.length_map]; omega)
  obtain ⟨t, ht⟩ := List.length_eq_one_iff.1 hsingle
  refine ⟨t, ?_, ?_, fun bs hbs => ?_⟩
  · rw [root, List.length_map, ← hlayer, ← Tree.map_digest_climb, ht]
    rfl
  · have hfringe := Tree.flatMap_fringe_climb pairs.length (pairs.map Tree.leaf)
    rw [ht, List.flatMap_singleton, List.flatMap_map] at hfringe
    rw [hfringe]
    exact List.flatMap_singleton' pairs
  · have hmem : bs ∈ (Tree.climb pairs.length (pairs.map Tree.leaf)).flatMap Tree.hashed := by
      rwa [ht, List.flatMap_singleton]
    rw [hashed, List.mem_append]
    rcases Tree.hashed_climb hmem with h | h
    · rw [List.flatMap_map] at h
      obtain ⟨pair, hpair, hleaf⟩ := List.mem_flatMap.1 h
      rw [List.mem_singleton.1 hleaf]
      exact Or.inl (List.mem_map_of_mem hpair)
    · rw [hlayer] at h
      exact Or.inr h

end Merkle

namespace State

/-- What is hashed on the way to the digest of a state. -/
def hashed [Crypto] (s : State) : List Bytes := Merkle.hashed s.entries.toList

/-- The digest of a state is that of a tree over its entries, or zero if there are none. -/
theorem digest_cases [Crypto] (s : State) :
    (s.entries.toList = [] ∧ s.digest = Buffer.zero 32) ∨
      ∃ t : Merkle.Tree, s.digest = t.digest ∧ t.fringe = s.entries.toList ∧
        ∀ bs ∈ t.hashed, bs ∈ s.hashed := by
  by_cases hempty : s.entries.toList = []
  · exact Or.inl ⟨hempty, by rw [digest, hempty]; rfl⟩
  · exact Or.inr (Merkle.exists_tree hempty)

/-- **The digest of a state binds its entries.**  Two states with equal digests have equal entries,
however many they have, if the hash function tells apart what is hashed for the two digests and
maps nothing of it to zero. -/
theorem entries_eq_of_digest_eq [Crypto] {s t : State}
    (hs : ∀ p ∈ s.entries.toList, Entries.PairFits p)
    (ht : ∀ p ∈ t.entries.toList, Entries.PairFits p)
    (hinj : Set.InjOn Crypto.hash {bs | bs ∈ s.hashed ++ t.hashed})
    (hzero : ∀ bs ∈ s.hashed ++ t.hashed, Crypto.hash bs ≠ Buffer.zero 32)
    (h : s.digest = t.digest) : s.entries = t.entries := by
  have hlist : s.entries.toList = t.entries.toList := by
    rcases s.digest_cases with ⟨hempty, hdigest⟩ | ⟨tree, hdigest, hfringe, hhashed⟩
    · rcases t.digest_cases with ⟨hempty', -⟩ | ⟨tree', hdigest', -, hhashed'⟩
      · rw [hempty, hempty']
      · rw [hdigest, hdigest', tree'.digest_eq_hash] at h
        exact absurd h.symm (hzero _ (List.mem_append_right _ (hhashed' _ tree'.bytes_mem_hashed)))
    · rcases t.digest_cases with ⟨-, hdigest'⟩ | ⟨tree', hdigest', hfringe', hhashed'⟩
      · rw [hdigest, hdigest', tree.digest_eq_hash] at h
        exact absurd h (hzero _ (List.mem_append_left _ (hhashed _ tree.bytes_mem_hashed)))
      · rw [hdigest, hdigest'] at h
        have htree := Merkle.Tree.eq_of_digest_eq hinj
          ⟨fun bs hbs => List.mem_append_left _ (hhashed bs hbs), hfringe ▸ hs⟩
          ⟨fun bs hbs => List.mem_append_right _ (hhashed' bs hbs), hfringe' ▸ ht⟩ h
        rw [← hfringe, ← hfringe', htree]
  exact Entries.ext hlist

/-- Three entries, whose last leaf is carried up, and the same three after other writes and under
another version. -/
theorem entries_eq_of_digest_eq_three :
    letI := Crypto.transparent
    let s := State.ofList [([1], [7]), ([2], []), ([3], [9, 9])]
    let t := State.mk (Entries.ofList [([3], []), ([2], []), ([1], [7]), ([3], [9, 9])]) 5
    s.entries.size = 3 ∧ s.digest = t.digest ∧ s.entries = t.entries := by
  let _ := Crypto.transparent
  let s := State.ofList [([1], [7]), ([2], []), ([3], [9, 9])]
  let t := State.mk (Entries.ofList [([3], []), ([2], []), ([1], [7]), ([3], [9, 9])]) 5
  have hfits : (∀ p ∈ s.entries.toList, Entries.PairFits p) ∧
      ∀ p ∈ t.entries.toList, Entries.PairFits p := by decide +kernel
  have hinj : ∀ a ∈ s.hashed ++ t.hashed, ∀ b ∈ s.hashed ++ t.hashed,
      Crypto.hash a = Crypto.hash b → a = b := by decide +kernel
  have hzero : ∀ bs ∈ s.hashed ++ t.hashed, Crypto.hash bs ≠ Buffer.zero 32 := by decide +kernel
  have hdigest : s.digest = t.digest := by decide +kernel
  exact ⟨by decide +kernel, hdigest, entries_eq_of_digest_eq hfits.1 hfits.2
    (fun a ha b hb => hinj a ha b hb) hzero hdigest⟩

/-- **Nothing else is hashed**: the digest is the same under all hash functions that agree on what
is hashed under one of them. -/
theorem digest_congr {c c' : Crypto} {s : State}
    (h : ∀ bs ∈ @hashed c s, c.hash bs = c'.hash bs) : @digest c s = @digest c' s := by
  have hleaves : s.entries.toList.map (@Merkle.leaf c) = s.entries.toList.map (@Merkle.leaf c') :=
    List.map_congr_left fun pair hpair =>
      h _ (List.mem_append_left _ (List.mem_map_of_mem hpair))
  have hclimb : @Merkle.climb c s.entries.toList.length (s.entries.toList.map (@Merkle.leaf c)) =
      @Merkle.climb c' s.entries.toList.length (s.entries.toList.map (@Merkle.leaf c)) :=
    Merkle.climb_congr fun bs hbs => h bs (List.mem_append_right _ hbs)
  show (@Merkle.climb c _ _).headD _ = (@Merkle.climb c' _ _).headD _
  rw [← hleaves, List.length_map, hclimb]

end State

end LedgerChain
