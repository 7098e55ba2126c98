import LedgerChain.Proofs.Node.Memory
import LedgerChain.Proofs.Node.Verdicts

/-!
# Where the memory of invalid blocks comes from

An identifier that is remembered as invalid belongs to a block that was handed in, and whose header
was found bad on its parent in the tree of that moment (`Node.Acts.of_mem_invalid`).  The blocks of
the tree are stored and stay stored, so what is remembered stays condemned (`Node.Acts.condemned`).
Faults of the store do not matter for this, not even such that keep it from being read.
-/

namespace LedgerChain

variable [Crypto]

namespace Node

variable {R : ChainTip → ChainTip → Prop} {A : Node → ChainTip → Prop} {params : Params}
  {genesis : ChainTip} {n n' : Node} {rest bs : List Block} {stack : List BlockId}
  {log : List Handing} {ending : Except ChainError Unit} {id : BlockId}

theorem Cascade.of_mem_invalid (h : Cascade rest stack n log ending n') (hn : n.Orderly)
    (hid : id ∈ n'.invalid.ids) :
    id ∈ n.invalid.ids ∨ ∃ x ∈ log, x.block.id = id ∧ x.node.FindsBad x.block := by
  induction h with
  | done n => exact Or.inl hid
  | @take n n' parent stack log ending _ ih =>
    obtain ⟨-, -, hn₁, hinvalid⟩ := hn.takeOrphans parent
    rw [← hinvalid]
    exact ih hn₁ hid
  | @hand n n' n₁ b rest stack result log ending himport _ ih =>
    have hone := handled_of_importOne himport
    rcases ih (hone.orderly hn) hid with hold | ⟨x, hx, hbad⟩
    · exact (hone.of_mem_invalid hn hold).imp_right fun h =>
        ⟨⟨n, b⟩, List.mem_cons_self, h.1.symm, h.2⟩
    · exact Or.inr ⟨x, List.mem_cons_of_mem _ hx, hbad⟩
  | @fail n n' b rest stack e himport =>
    exact ((handled_of_importOne himport).of_mem_invalid hn hid).imp_right fun h =>
      ⟨⟨n, b⟩, List.mem_cons_self, h.1.symm, h.2⟩

theorem Act.of_mem_invalid (h : Act A n log n') (hn : n.Orderly) (hid : id ∈ n'.invalid.ids) :
    id ∈ n.invalid.ids ∨ ∃ x ∈ log, x.block.id = id ∧ x.node.FindsBad x.block := by
  cases h with
  | aside _ hmemory => exact Or.inl (hmemory.invalid ▸ hid)
  | shutdown => exact Or.inl ((sameMemory_shutdown n).invalid ▸ hid)
  | imported h => exact h.of_mem_invalid hn hid
  | @failed tip _ _ _ => exact Or.inl ((sameMemory_offer n tip).invalid ▸ hid)
  | @made _ tip _ update _ _ _ _ _ h =>
    have hmemory := sameMemory_made n tip update
    rw [← hmemory.invalid]
    exact h.of_mem_invalid (orderly_of_orphans_eq hmemory.orphans hn) hid

/-- **What is remembered as invalid was handed in and found bad.** -/
theorem Acts.of_mem_invalid (h : Acts A n log n') (hn : n.Orderly) (hid : id ∈ n'.invalid.ids) :
    id ∈ n.invalid.ids ∨ ∃ x ∈ log, x.block.id = id ∧ x.node.FindsBad x.block := by
  induction h with
  | refl n => exact Or.inl hid
  | head hact _ ih =>
    rcases ih (hact.orderly hn) hid with hold | ⟨x, hx, hbad⟩
    · refine (hact.of_mem_invalid hn hold).imp_right fun h => ?_
      exact h.imp fun x h => ⟨List.mem_append_left _ h.1, h.2⟩
    · exact Or.inr ⟨x, List.mem_append_right _ hx, hbad⟩

theorem Acts.condemned (h : Acts (Placed R) n log n') (hR : Linking params.consensus R)
    (hn : n.Kept R params genesis) (horder : n.Orderly)
    (hids : Store.DistinctIds n'.store.journal) (hlog : ∀ x ∈ log, x.block ∈ bs)
    (hbefore : ∀ id ∈ n.invalid.ids, n.Condemned bs id) :
    ∀ id ∈ n'.invalid.ids, n'.Condemned bs id := by
  intro id hid
  rcases h.of_mem_invalid horder hid with hold | ⟨x, hx, rfl, below, cause, hbelow, hbad, hinvalid⟩
  · have hrun := h.run_of (admits_placed hR) hn
    exact (hbefore id hold).later hrun.later hrun.params_eq
  · -- the parent was in the tree when the block was handed in, so it is stored
    obtain ⟨hrun, hafter⟩ := h.runs_of_mem (admits_placed hR) hn x hx
    have hlater : x.node.store.Later n'.store := Run.later hafter
    have hstored := (hrun.kept hR hn).find?_stored (hids.of_suffix hlater.suffix) hbelow
    have hcondemned : x.node.Condemned bs x.block.id := by
      refine ⟨x.block, _, cause, hlog x hx, rfl, hstored, ?_, hinvalid⟩
      rw [← hbad]
      exact validateBlock_congr rfl rfl
    exact hcondemned.later hlater hafter.params_eq

end Node

end LedgerChain
