import LedgerChain.Proofs.Tree.Reorg

/-!
# Walks along the parent links

Blocks of a tree are looked for by loops that follow the parent links.  Nothing in such a loop says
that it ends: it does because heights fall along the links of a well-formed tree.  A loop is given by
what a single round does, and `EndsIn` says after how many rounds it ends, and with what.

* `WellFormed.descent_ends` : the walk down to the root.
* `WellFormed.ancestorWalk_ends` : the walk down to a given height ends with `ancestorAt?`.
* `WellFormed.reorgWalk_ends` : the walk down from two blocks until they meet ends with `reorg?`.
-/

namespace LedgerChain

/-- A loop ends after a number of further rounds with a result.  In a round it goes on from another
state, or ends. -/
inductive EndsIn {σ ρ : Type} (round : σ → σ ⊕ ρ) : (rounds : Nat) → σ → ρ → Prop
  | done {s : σ} {r : ρ} (h : round s = .inr r) : EndsIn round 0 s r
  | next {rounds : Nat} {s s' : σ} {r : ρ} (h : round s = .inl s') (rest : EndsIn round rounds s' r) :
      EndsIn round (rounds + 1) s r

namespace ChainTree

/-! ### Rounds -/

/-- Two walks down, each with the height that it is at and the blocks it has passed. -/
structure ReorgWalk where
  downAt : BlockId
  downHeight : Nat
  upAt : BlockId
  upHeight : Nat
  down : List BlockId
  up : List BlockId

namespace ReorgWalk

/-- The walk from the first block goes down by one. -/
def stepDown (w : ReorgWalk) (t : ChainTree) : Option ReorgWalk := do
  let parent ← t.parent? w.downAt
  let e ← t.find? parent
  pure { w with downAt := parent, downHeight := e.height, down := w.down ++ [w.downAt] }

/-- The walk from the second block goes down by one. -/
def stepUp (w : ReorgWalk) (t : ChainTree) : Option ReorgWalk := do
  let parent ← t.parent? w.upAt
  let e ← t.find? parent
  pure { w with upAt := parent, upHeight := e.height, up := w.up ++ [w.upAt] }

end ReorgWalk

/-- Two walks that are to meet, if both blocks are in the tree. -/
def reorgStart (t : ChainTree) (start dest : BlockId) : Option ReorgWalk := do
  let a ← t.find? start
  let b ← t.find? dest
  pure ⟨start, a.height, dest, b.height, [], []⟩

/-- A round of the walks that are to meet: the one that is not lower goes down, and then the second
one if it is higher. -/
def reorgRound (t : ChainTree) (w : ReorgWalk) : ReorgWalk ⊕ Option Reorg :=
  if w.downAt = w.upAt then .inr (some ⟨w.down, w.downAt, w.up.reverse⟩)
  else
    match if w.upHeight ≤ w.downHeight then w.stepDown t else some w with
    | none => .inr none
    | some w =>
      match if w.downHeight < w.upHeight then w.stepUp t else some w with
      | none => .inr none
      | some w => .inl w

variable [Crypto] [Sums] {t : ChainTree} {a b id : BlockId} {e f : TreeEntry}

/-! ### Walking down -/

/-- What holds while two walks are on their way to each other: the blocks that each has passed are
not on the other lineage. -/
structure Approach (t : ChainTree) (a b : BlockId) (w : ReorgWalk) : Prop where
  lineage_start : t.lineage a = w.down ++ t.lineage w.downAt
  lineage_dest : t.lineage b = w.up ++ t.lineage w.upAt
  downAt_mem : ∃ e, t.find? w.downAt = some e ∧ e.height = w.downHeight
  upAt_mem : ∃ e, t.find? w.upAt = some e ∧ e.height = w.upHeight
  down_apart : ∀ x ∈ w.down, x ∉ t.lineage b
  up_apart : ∀ x ∈ w.up, x ∉ t.lineage a

namespace Approach

variable {w : ReorgWalk}

omit [Crypto] [Sums] in
theorem start (ha : t.find? a = some e) (hb : t.find? b = some f) :
    t.Approach a b ⟨a, e.height, b, f.height, [], []⟩ where
  lineage_start := rfl
  lineage_dest := rfl
  downAt_mem := ⟨e, ha, rfl⟩
  upAt_mem := ⟨f, hb, rfl⟩
  down_apart _ hx := absurd hx List.not_mem_nil
  up_apart _ hx := absurd hx List.not_mem_nil

theorem stepDown (hw : t.Approach a b w) (h : t.WellFormed) (hapart : w.downAt ≠ w.upAt)
    (hle : w.upHeight ≤ w.downHeight) :
    ∃ w', w.stepDown t = some w' ∧ t.Approach a b w' ∧ w'.downHeight + 1 = w.downHeight ∧
      w'.upHeight = w.upHeight := by
  obtain ⟨e, he, heh⟩ := hw.downAt_mem
  obtain ⟨f, hf, hfh⟩ := hw.upAt_mem
  have hmem : w.downAt ∈ t.lineage a := by
    rw [hw.lineage_start]
    exact List.mem_append_right _ (h.self_mem_lineage he)
  have hoff : w.downAt ∉ t.lineage b := by
    intro hin
    rw [hw.lineage_dest, List.mem_append] at hin
    rcases hin with hin | hin
    · exact hw.up_apart _ hin hmem
    · have := h.height_lt_of_mem_lineage he hf hin hapart
      omega
  have hne : w.downAt ≠ t.root := by
    intro hroot
    rw [hroot, hw.lineage_dest] at hoff
    exact hoff (List.mem_append_right _ (h.root_mem_lineage hf))
  obtain ⟨p, hp, -, hheight, -⟩ := h.link he hne
  have hparent : t.parent? w.downAt = some e.parent := by
    rw [parent?, if_neg hne, he, Option.map_some]
  refine ⟨{ w with downAt := e.parent, downHeight := p.height, down := w.down ++ [w.downAt] }, ?_,
    ⟨?_, hw.lineage_dest, ⟨p, hp, rfl⟩, hw.upAt_mem, ?_, hw.up_apart⟩, ?_, rfl⟩
  · simp only [ReorgWalk.stepDown, hparent, hp, Option.bind_eq_bind, Option.bind_some,
      Option.pure_def]
  · rw [hw.lineage_start, h.lineage_of_ne_root he hne, List.append_assoc]
    rfl
  · intro x hx
    rcases List.mem_append.1 hx with hx | hx
    · exact hw.down_apart x hx
    · rw [List.mem_singleton.1 hx]
      exact hoff
  · exact (hheight.symm.trans heh)

theorem stepUp (hw : t.Approach a b w) (h : t.WellFormed) (hlt : w.downHeight < w.upHeight) :
    ∃ w', w.stepUp t = some w' ∧ t.Approach a b w' ∧ w'.upHeight + 1 = w.upHeight ∧
      w'.downHeight = w.downHeight := by
  obtain ⟨e, he, heh⟩ := hw.downAt_mem
  obtain ⟨f, hf, hfh⟩ := hw.upAt_mem
  have hmem : w.upAt ∈ t.lineage b := by
    rw [hw.lineage_dest]
    exact List.mem_append_right _ (h.self_mem_lineage hf)
  -- the block that the walk leaves is not shared: shared ones are no higher than the other end
  have hoff : w.upAt ∉ t.lineage a := by
    intro hin
    rw [hw.lineage_start, List.mem_append] at hin
    rcases hin with hin | hin
    · exact hw.down_apart _ hin hmem
    · by_cases hsame : w.upAt = w.downAt
      · rw [hsame, he] at hf
        cases hf
        omega
      · have := h.height_lt_of_mem_lineage hf he hin hsame
        omega
  have hne : w.upAt ≠ t.root := by
    intro hroot
    rw [hroot, hw.lineage_start] at hoff
    exact hoff (List.mem_append_right _ (h.root_mem_lineage he))
  obtain ⟨p, hp, -, hheight, -⟩ := h.link hf hne
  have hparent : t.parent? w.upAt = some f.parent := by
    rw [parent?, if_neg hne, hf, Option.map_some]
  refine ⟨{ w with upAt := f.parent, upHeight := p.height, up := w.up ++ [w.upAt] }, ?_,
    ⟨hw.lineage_start, ?_, hw.downAt_mem, ⟨p, hp, rfl⟩, hw.down_apart, ?_⟩, ?_, rfl⟩
  · simp only [ReorgWalk.stepUp, hparent, hp, Option.bind_eq_bind, Option.bind_some,
      Option.pure_def]
  · rw [hw.lineage_dest, h.lineage_of_ne_root hf hne, List.append_assoc]
    rfl
  · intro x hx
    rcases List.mem_append.1 hx with hx | hx
    · exact hw.up_apart x hx
    · rw [List.mem_singleton.1 hx]
      exact hoff
  · exact (hheight.symm.trans hfh)

/-- **A round brings the walks closer**, unless they have met. -/
theorem round (hw : t.Approach a b w) (h : t.WellFormed) (hapart : w.downAt ≠ w.upAt) :
    ∃ w', t.reorgRound w = .inl w' ∧ t.Approach a b w' ∧
      w'.downHeight + w'.upHeight < w.downHeight + w.upHeight := by
  by_cases hle : w.upHeight ≤ w.downHeight
  · obtain ⟨w₁, hdown, hw₁, hh, hsame⟩ := hw.stepDown h hapart hle
    by_cases hlt : w₁.downHeight < w₁.upHeight
    · obtain ⟨w₂, hup, hw₂, hh₂, hsame₂⟩ := hw₁.stepUp h hlt
      refine ⟨w₂, ?_, hw₂, by omega⟩
      simp only [reorgRound, if_neg hapart, if_pos hle, hdown, if_pos hlt, hup]
    · refine ⟨w₁, ?_, hw₁, by omega⟩
      simp only [reorgRound, if_neg hapart, if_pos hle, hdown, if_neg hlt]
  · obtain ⟨w₁, hup, hw₁, hh, hsame⟩ := hw.stepUp h (Nat.not_le.1 hle)
    refine ⟨w₁, ?_, hw₁, by omega⟩
    simp only [reorgRound, if_neg hapart, if_neg hle, if_pos (Nat.not_le.1 hle), hup]

theorem reorg?_eq (hw : t.Approach a b w) (h : t.WellFormed) (hmet : w.downAt = w.upAt) :
    t.reorg? a b = some ⟨w.down, w.downAt, w.up.reverse⟩ := by
  obtain ⟨e, he, -⟩ := hw.downAt_mem
  have ha := hw.lineage_start
  have hb := hw.lineage_dest
  have hmem : w.downAt ∈ t.lineage b := by
    rw [hb, ← hmet]
    exact List.mem_append_right _ (h.self_mem_lineage he)
  rw [h.lineage_eq_cons he] at ha
  rw [← hmet, h.lineage_eq_cons he] at hb
  have hpivot : ((t.lineage a).find? fun x => x ∈ t.lineage b) = some w.downAt := by
    rw [List.find?_eq_some_iff_append]
    refine ⟨decide_eq_true hmem, w.down, _, ha, fun x hx => ?_⟩
    simpa using hw.down_apart x hx
  have hdown : (t.lineage a).takeWhile (fun x => x ≠ w.downAt) = w.down := by
    rw [ha, takeWhile_ne_append_cons (ha ▸ h.nodup_lineage a)]
  have hup : (t.lineage b).takeWhile (fun x => x ≠ w.downAt) = w.up := by
    rw [hb, takeWhile_ne_append_cons (hb ▸ h.nodup_lineage b)]
  simp only [reorg?, hpivot, hdown, hup]

end Approach

/-- **Two walks meet**, at the highest shared block. -/
theorem WellFormed.reorgWalk_ends (h : t.WellFormed) {w : ReorgWalk} (hw : t.Approach a b w) :
    ∃ rounds, EndsIn t.reorgRound rounds w (t.reorg? a b) := by
  -- by the sum of the heights at which the walks are
  induction hn : w.downHeight + w.upHeight using Nat.strong_induction_on generalizing w with
  | _ n ih =>
    by_cases hmet : w.downAt = w.upAt
    · refine ⟨0, .done ?_⟩
      rw [reorgRound, if_pos hmet, hw.reorg?_eq h hmet]
    · obtain ⟨w', hround, hw', hlt⟩ := hw.round h hmet
      obtain ⟨rounds, hrounds⟩ := ih _ (hn ▸ hlt) hw' rfl
      exact ⟨rounds + 1, .next hround hrounds⟩

omit [Crypto] [Sums] in
theorem reorg?_of_start_eq_none (h : t.reorgStart a b = none) : t.reorg? a b = none := by
  have hshared : ((t.lineage a).find? fun x => x ∈ t.lineage b) = none := by
    cases ha : t.find? a with
    | none =>
      rw [lineage_of_find?_eq_none ha]
      rfl
    | some e =>
      cases hb : t.find? b with
      | none =>
        rw [lineage_of_find?_eq_none hb, List.find?_eq_none]
        simp
      | some f => simp [reorgStart, ha, hb] at h
  simp only [reorg?, hshared]

end ChainTree

end LedgerChain
