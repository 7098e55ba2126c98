import LedgerChain.Proofs.Node.Gathering

/-!
# Releasing the orphans of a set

An accepted block releases the orphans that wait for it, and each of these the ones that wait for it
in turn.  While this goes on, every orphan whose parent is in the tree waits for a block that is
still on the stack (`Releases`).  Each step makes stack and orphans together fewer by one
(`Releases.step`), so the steps suffice.  At the end no orphan has its parent in the tree, and no
block was lost (`Releases.releaseFrom`).
-/

namespace LedgerChain

namespace Node

variable [Crypto] {params : Params} {genesis tip : ChainTip} {tips w : List ChainTip} {n n' : Node}

/-- No orphan has its parent in the tree. -/
def Closed (n : Node) (w : List ChainTip) : Prop := ∀ t ∈ w, n.hasSeen t.parent = false

/-- A block that was handed in is in the tree, or waits. -/
def Has (n : Node) (w : List ChainTip) (t : ChainTip) : Prop := n.hasSeen t.id = true ∨ t ∈ w

/-- The second node lost no block. -/
structure KeepsAll (n : Node) (w : List ChainTip) (n' : Node) (w' : List ChainTip) : Prop where
  seen : ∀ id, n.hasSeen id = true → n'.hasSeen id = true
  has : ∀ t ∈ w, n'.Has w' t

theorem KeepsAll.refl : KeepsAll n w n w :=
  ⟨fun _ hid => hid, fun _ => Or.inr⟩

theorem KeepsAll.trans {n₁ : Node} {w₁ w' : List ChainTip} (h₁ : KeepsAll n w n₁ w₁)
    (h₂ : KeepsAll n₁ w₁ n' w') : KeepsAll n w n' w' where
  seen id hid := h₂.seen id (h₁.seen id hid)
  has t ht := (h₁.has t ht).elim (fun hseen => Or.inl (h₂.seen _ hseen)) (h₂.has t)

theorem KeepsAll.apply {w' : List ChainTip} (h : KeepsAll n w n' w') {t : ChainTip}
    (ht : n.Has w t) : n'.Has w' t :=
  ht.elim (fun hseen => Or.inl (h.seen _ hseen)) (h.has t)

namespace Gathers

theorem importReleased (h : Gathers params genesis tips n w) (hset : BlockSet params genesis tips)
    (hzero : genesis.height = 0) {released : List ChainTip}
    (hreleased : ∀ t ∈ released, t ∈ tips ∧ n.hasSeen t.id = false ∧ n.hasSeen t.parent = true ∧
      t ∉ w) (hnodup : released.Nodup) :
    ∃ n', n.importReleased (released.map ChainTip.block) = (.ok (released.map ChainTip.id), n') ∧
      Gathers params genesis tips n' w ∧
      ∀ id, n'.hasSeen id = true ↔ n.hasSeen id = true ∨ id ∈ released.map ChainTip.id := by
  induction released generalizing n with
  | nil => exact ⟨n, rfl, h, fun id => by simp⟩
  | cons t rest ih =>
    obtain ⟨htip, hnew, hparent, hout⟩ := hreleased t List.mem_cons_self
    obtain ⟨hnot, hrest⟩ := List.nodup_cons.1 hnodup
    obtain ⟨result, n₁, himport, haccepted, hn₁, hseen⟩ :=
      h.importOne_fits hset hzero htip hnew hparent hout
    -- the other released blocks still fit, since identifiers tell them from the first one
    obtain ⟨n₂, himport₂, hn₂, hseen₂⟩ := ih hn₁ (fun a ha => by
      obtain ⟨hatip, hanew, haparent, haout⟩ := hreleased a (List.mem_cons_of_mem _ ha)
      refine ⟨hatip, ?_, (hseen a.parent).2 (Or.inl haparent), haout⟩
      rw [← Bool.not_eq_true, hseen, not_or, Bool.not_eq_true]
      refine ⟨hanew, fun hid => hnot ?_⟩
      rw [← hset.eq_of_id (List.mem_cons_of_mem _ hatip) (List.mem_cons_of_mem _ htip) hid]
      exact ha) hrest
    refine ⟨n₂, ?_, hn₂, fun id => ?_⟩
    · rw [List.map_cons, Node.importReleased, himport]
      simp only [himport₂, haccepted, if_true]
      rfl
    · rw [hseen₂, hseen, List.map_cons, List.mem_cons, or_assoc]

theorem takeOrphans (h : Gathers params genesis tips n w) (parent : BlockId) :
    (n.takeOrphans parent).1 = (w.filter fun t => t.parent = parent).map ChainTip.block ∧
      Gathers params genesis tips (n.takeOrphans parent).2
        (w.filter fun t => t.parent ≠ parent) := by
  obtain ⟨pool, hpool, hholds, hcapacity⟩ := h.pool
  obtain ⟨hfile, hcap, hleft⟩ := hholds.takeChildren parent
  rw [List.filter_map] at hfile hleft
  rw [Node.takeOrphans, hpool]
  exact ⟨hfile, h.withPool hleft (by rw [hcap]; exact hcapacity)
    fun t ht => h.waiting t (List.mem_filter.1 ht).1⟩

theorem nodup (h : Gathers params genesis tips n w) : w.Nodup := by
  obtain ⟨pool, -, hholds, -⟩ := h.pool
  exact List.Nodup.of_map _ (List.Nodup.of_map _ hholds.nodup)

end Gathers

/-! ### The release loop -/

/-- A node in the middle of a release: every orphan whose parent is in the tree waits for a block on
the stack. -/
structure Releases (params : Params) (genesis : ChainTip) (tips : List ChainTip) (n : Node)
    (w : List ChainTip) (stack : List BlockId) : Prop where
  gathers : Gathers params genesis tips n w
  seen : ∀ id ∈ stack, n.hasSeen id = true
  open_mem : ∀ t ∈ w, n.hasSeen t.parent = true → t.parent ∈ stack

theorem Releases.closed {stack : List BlockId} (h : Releases params genesis tips n w stack)
    (hempty : stack = []) : n.Closed w := by
  intro t ht
  rw [← Bool.not_eq_true]
  intro hparent
  have hmem := h.open_mem t ht hparent
  rw [hempty] at hmem
  exact List.not_mem_nil hmem

/-- **One step of a release** imports the orphans that wait for the topmost block of the stack.
They take its place there, so stack and orphans together become fewer by one. -/
theorem Releases.step {parent : BlockId} {stack : List BlockId}
    (h : Releases params genesis tips n w (parent :: stack)) (hset : BlockSet params genesis tips)
    (hzero : genesis.height = 0) :
    ∃ ids left n',
      (n.takeOrphans parent).2.importReleased (n.takeOrphans parent).1 = (.ok ids, n') ∧
      Releases params genesis tips n' left (ids.reverse ++ stack) ∧ KeepsAll n w n' left ∧
      ids.length + left.length = w.length := by
  obtain ⟨hfile, hn₁⟩ := h.gathers.takeOrphans parent
  have hsame := sameChain_takeOrphans n parent
  have hseen₁ : ∀ id, (n.takeOrphans parent).2.hasSeen id = n.hasSeen id := by
    intro id
    rw [hasSeen, hasSeen, hsame.forkChoice]
  have hready : ∀ t ∈ w.filter fun t => t.parent = parent,
      t ∈ tips ∧ (n.takeOrphans parent).2.hasSeen t.id = false ∧
      (n.takeOrphans parent).2.hasSeen t.parent = true ∧
      t ∉ w.filter fun t => t.parent ≠ parent := by
    intro t ht
    obtain ⟨hw, hparent⟩ := List.mem_filter.1 ht
    have hparent := of_decide_eq_true hparent
    obtain ⟨htip, hnew⟩ := h.gathers.waiting t hw
    refine ⟨htip, (hseen₁ _).trans hnew, ?_, fun hmem => ?_⟩
    · rw [hseen₁, hparent]
      exact h.seen parent List.mem_cons_self
    · exact of_decide_eq_true (List.mem_filter.1 hmem).2 hparent
  obtain ⟨n₂, himport, hn₂, hseen₂⟩ :=
    hn₁.importReleased hset hzero hready (h.gathers.nodup.filter _)
  rw [hfile]
  set released := w.filter fun t => t.parent = parent with hreleased
  set left := w.filter fun t => t.parent ≠ parent with hleft
  have hseen : ∀ id, n₂.hasSeen id = true ↔
      n.hasSeen id = true ∨ id ∈ released.map ChainTip.id := by
    intro id
    rw [hseen₂, hseen₁]
  -- what is left waits for a block that was just released, or for one further down the stack
  refine ⟨released.map ChainTip.id, left, n₂, himport,
    ⟨hn₂, fun id hid => ?_, fun t ht hparent => ?_⟩,
    ⟨fun id hid => (hseen id).2 (Or.inl hid), fun t ht => ?_⟩, ?_⟩
  · rw [hseen]
    rcases List.mem_append.1 hid with hid | hid
    · exact Or.inr (List.mem_reverse.1 hid)
    · exact Or.inl (h.seen id (List.mem_cons_of_mem _ hid))
  · obtain ⟨hw, hne⟩ := List.mem_filter.1 ht
    rw [List.mem_append, List.mem_reverse]
    rcases (hseen _).1 hparent with hold | hnew
    · exact Or.inr ((List.mem_cons.1 (h.open_mem t hw hold)).resolve_left (of_decide_eq_true hne))
    · exact Or.inl hnew
  · by_cases hparent : t.parent = parent
    · have hmem : t ∈ released := List.mem_filter.2 ⟨ht, decide_eq_true hparent⟩
      exact Or.inl ((hseen _).2 (Or.inr (List.mem_map_of_mem hmem)))
    · exact Or.inr (List.mem_filter.2 ⟨ht, decide_eq_true hparent⟩)
  · rw [List.length_map, hreleased, hleft]
    simp only [ne_eq, decide_not]
    exact (List.length_eq_length_filter_add _).symm

/-- **Releasing orphans ends with no orphan whose parent is in the tree**, and loses none. -/
theorem Releases.releaseFrom {steps : Nat} {stack : List BlockId}
    (h : Releases params genesis tips n w stack) (hset : BlockSet params genesis tips)
    (hzero : genesis.height = 0) (hsteps : stack.length + w.length ≤ steps) :
    ∃ w' n', n.releaseFrom steps stack = (.ok (), n') ∧ Gathers params genesis tips n' w' ∧
      n'.Closed w' ∧ KeepsAll n w n' w' := by
  induction steps generalizing n w stack with
  | zero =>
    have hstack : stack = [] := List.length_eq_zero_iff.1 (by omega)
    exact ⟨w, n, rfl, h.gathers, h.closed hstack, .refl⟩
  | succ steps ih =>
    cases stack with
    | nil => exact ⟨w, n, rfl, h.gathers, h.closed rfl, .refl⟩
    | cons parent stack =>
      obtain ⟨ids, left, n₂, himport, hn₂, hkeeps₂, hlength⟩ := h.step hset hzero
      have hsteps₂ : (ids.reverse ++ stack).length + left.length ≤ steps := by
        simp only [List.length_append, List.length_reverse]
        rw [List.length_cons] at hsteps
        omega
      obtain ⟨w', n', hrelease, hn', hclosed, hkeeps⟩ := ih hn₂ hsteps₂
      refine ⟨w', n', ?_, hn', hclosed, hkeeps₂.trans hkeeps⟩
      rw [Node.releaseFrom]
      simp only [himport]
      exact hrelease

end Node

end LedgerChain
