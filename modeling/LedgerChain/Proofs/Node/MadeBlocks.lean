import LedgerChain.Proofs.Node.Stale

/-!
# Where made blocks come from

The block that an author returns was sealed before, on a tip that was canonical at the moment at which
it was read (`Node.exists_origin`), however the chain moved in between.
-/

namespace LedgerChain

variable [Crypto]

namespace Making

open Node

variable {m m' : Making} {config : AuthoringConfig} {timeline : Timeline} {r : AuthoredBlock}

theorem Advances.made (h : m.Advances config timeline m') (hr : m'.stage = .returned (.ok r)) :
    m.stage = .returned (.ok r) ∨ ∃ a tip, m.stage = .sealed a tip ∧ r.block = tip.block := by
  cases h with
  | @closed a tip hstage =>
    refine Or.inr ⟨a, tip, hstage, ?_⟩
    rw [Making.close] at hr
    rcases hend : m.node.submitSealed a tip with ⟨_ | _ | ⟨block, outcome⟩, n'⟩ <;>
      rw [hend] at hr <;> cases hr
    exact (submitSealed_made_cases hend).2.1
  | unsealed _ _ =>
    simp only [Making.close, abandon] at hr
    split at hr <;> cases hr
  | done _ => exact Or.inl hr
  | spent | headless | chose | pulled | empty | registered | found => cases hr

end Making

namespace Node

open Making

variable {I : Node → Prop} {K A : Node → ChainTip → Prop} {n : Node} {config : AuthoringConfig}
  {moves : List MakingMove} {p : ChainTip} {r : AuthoredBlock}

theorem exists_canonical_parent (hp : (n.making config moves).stage.parent? = some p) :
    ∃ before, before <+: moves ∧ (n.making config before).node.canonicalTip? = some p := by
  induction moves using List.reverseRecOn with
  | nil => cases hp
  | append_singleton before move ih =>
    have hbefore : (n.making config before).stage.parent? = some p →
        ∃ earlier, earlier <+: before ++ [move] ∧
          (n.making config earlier).node.canonicalTip? = some p := fun hp =>
      (ih hp).imp fun _ h => ⟨h.1.trans (List.prefix_append _ _), h.2⟩
    rw [making_append] at hp
    cases move with
    | event event => exact hbefore hp
    | submit x => exact hbefore hp
    | proceed timeline =>
      rcases (Making.advances _ config timeline).parent? hp with ⟨hread, -⟩ | ⟨hparent, -⟩
      · exact ⟨before, List.prefix_append _ _, hread⟩
      · exact hbefore hparent

theorem exists_sealed (hr : (n.making config moves).stage = .returned (.ok r)) :
    ∃ before a tip, before <+: moves ∧ (n.making config before).stage = .sealed a tip ∧
      r.block = tip.block := by
  induction moves using List.reverseRecOn with
  | nil => cases hr
  | append_singleton before move ih =>
    have hbefore : (n.making config before).stage = .returned (.ok r) →
        ∃ earlier a tip, earlier <+: before ++ [move] ∧
          (n.making config earlier).stage = .sealed a tip ∧ r.block = tip.block := by
      intro hr
      obtain ⟨earlier, a, tip, hpart, hsealed⟩ := ih hr
      exact ⟨earlier, a, tip, hpart.trans (List.prefix_append _ _), hsealed⟩
    rw [making_append] at hr
    cases move with
    | event event => exact hbefore hr
    | submit x => exact hbefore hr
    | proceed timeline =>
      rcases (Making.advances _ config timeline).made hr with hr | ⟨a, tip, hstage, hblock⟩
      · exact hbefore hr
      · exact ⟨before, a, tip, List.prefix_append _ _, hstage, hblock⟩

/-- **What an author returns was made on a canonical tip** of an earlier moment. -/
theorem exists_origin (hA : Admits I K A) (hI : ∀ {n}, I n → n.Sound) (hn : I n)
    (horder : n.Orderly) (hr : (n.making config moves).stage = .returned (.ok r)) :
    ∃ before p xs ctx tip, before <+: moves ∧
      (n.making config before).node.canonicalTip? = some p ∧
      (Candidate.prepare p xs).1.complete n.engine p ctx = .ok tip ∧ r.block = tip.block := by
  obtain ⟨later, a, tip, hlater, hstage, hblock⟩ := exists_sealed hr
  have hparent : (n.making config later).stage.parent? = some a.parent := by rw [hstage]; rfl
  obtain ⟨before, hbefore, htip⟩ := exists_canonical_parent hparent
  obtain ⟨hrun, hsteady⟩ := steady_making hA hI hn horder config later
  have hholds := hsteady.holds
  rw [hstage] at hholds
  obtain ⟨-, xs, ctx, hmade⟩ := hholds
  rw [hrun.engine_eq] at hmade
  exact ⟨before, a.parent, xs, ctx, tip, hbefore.trans hlater, htip, hmade, hblock⟩

end Node

end LedgerChain
