import LedgerChain.Proofs.Node.Kept
import LedgerChain.Proofs.Node.Steady

/-!
# Blocks on stale parents

**A sealed block is submitted only on the canonical tip**, and only if this did not move since the
attempt was registered (`Making.gives_up_or_current`).

* Whatever moves the canonical tip cancels the attempt that is registered, and when the author
  returns, none is (`Making.Guarded`).
* If the canonical tip moved before the attempt was registered, then nothing is cancelled, but the
  parent is not the canonical tip any more: the tip only gets better, and a block weighs the same
  whenever it is in the tree (`Making.Traced.gives_up`).
-/

namespace LedgerChain

variable [Crypto]

/-- A sealed block is given up, and its extrinsics go back to the pool. -/
def Node.GivesUp (n : Node) (a : Attempt) (tip : ChainTip) : Prop :=
  n.submitSealed a tip = (.startOver, (n.unregister a.token).giveBack tip.block.extrinsics)

namespace Making

open Node

variable {I : Node → Prop} {K A : Node → ChainTip → Prop} {R : ChainTip → ChainTip → Prop}
  {params : Params} {genesis : ChainTip} {m m' : Making} {config : AuthoringConfig} {a : Attempt}
  {tip : ChainTip}

/-- The canonical tip moved since the parent of the attempt was read. -/
def Overtaken (m : Making) : Prop := ∃ u ∈ m.sinceParent, u.MovesTip

/-- The canonical tip moved since the attempt was registered. -/
def Disturbed (m : Making) : Prop := ∃ u ∈ m.sinceToken, u.MovesTip

/-! ### Tokens -/

/-- The attempt at hand is the only one that may be registered, and it is cancelled if the canonical
tip moved since it was. -/
structure Guarded (m : Making) : Prop where
  registered : ∀ t ∈ m.node.attempts, m.stage.token? = some t
  watched : ∀ {t}, m.stage.token? = some t → m.node.Watches t
  cancelled : ∀ {t}, m.stage.token? = some t → m.Disturbed → m.node.flags.isCancelled t = true

omit [Crypto] in
theorem Guarded.of_attempts (htoken : m.stage.token? = none) (hnone : m.node.attempts = []) :
    m.Guarded where
  registered t ht := by
    rw [hnone] at ht
    cases ht
  watched heq := by
    rw [htoken] at heq
    cases heq
  cancelled heq := by
    rw [htoken] at heq
    cases heq

omit [Crypto] in
theorem Guarded.attempts_eq (h : m.Guarded) (htoken : m.stage.token? = none) :
    m.node.attempts = [] :=
  List.eq_nil_iff_forall_not_mem.2 fun t ht => by
    have heq := h.registered t ht
    rw [htoken] at heq
    cases heq

omit [Crypto] in
theorem token?_ofEnd (excluded : List (ExtrinsicId × ExtrinsicError)) (ending : AttemptEnd) :
    (Stage.ofEnd excluded ending).token? = none := by
  cases ending <;> rfl

omit [Crypto] in
theorem Guarded.attempts_unregister (h : m.Guarded) (htoken : m.stage.token? = some a.token) :
    (m.node.unregister a.token).attempts = [] := by
  refine List.filter_eq_nil_iff.2 fun t ht hne => of_decide_eq_true hne ?_
  have heq := h.registered t ht
  rw [htoken, Option.some.injEq] at heq
  exact heq.symm

theorem Guarded.tell (h : m.Guarded) {n' : Node} {news : List News}
    (hreports : Reports news m.node n') : (m.tell n' news).Guarded where
  registered t ht := h.registered t (hreports.attempts ht)
  watched heq := hreports.watched (h.watched heq)
  cancelled := by
    rintro t heq ⟨u, hu, hmoves⟩
    rcases List.mem_append.1 hu with hu | hu
    · exact hreports.cancelled (h.cancelled heq ⟨u, hu, hmoves⟩)
    · exact hreports.warned ⟨u, hu, hmoves⟩ (h.watched heq)

omit [Crypto] in
theorem Guarded.register (hnone : m.node.attempts = []) (parent : ChainTip) (c : Candidate)
    (excluded : List (ExtrinsicId × ExtrinsicError)) : Guarded
      { m with
        node := (m.node.register parent c).2
        stage := .sealing (m.node.register parent c).1
        excluded
        sinceToken := [] } := by
  refine ⟨fun t ht => ?_, fun heq => ?_, fun _ ⟨u, hu, _⟩ => absurd hu List.not_mem_nil⟩
  · simp only [Node.register, hnone, List.nil_append, List.mem_singleton] at ht
    rw [ht]
    rfl
  · cases heq
    refine ⟨?_, Or.inl (List.mem_append_right _ (List.mem_singleton_self _))⟩
    simp [Node.register, CancelFlags.fresh]

omit [Crypto] in
theorem Guarded.close (h : m.Guarded) (htoken : m.stage.token? = some a.token)
    {ending : AttemptEnd × Node} (hless : ending.2.attempts ⊆ (m.node.unregister a.token).attempts) :
    (m.close ending).Guarded := by
  rw [h.attempts_unregister htoken] at hless
  exact .of_attempts (token?_ofEnd _ _) (List.subset_nil.1 hless)

/-- **Every move cancels the attempts that it disturbs.** -/
theorem Guarded.next (h : m.Guarded) (hm : m.Steady I K) (config : AuthoringConfig)
    (move : MakingMove) : (m.next config move).Guarded := by
  cases move with
  | event event => exact h.tell (hm.reports_event event)
  | submit x => exact h.tell (reports_submitExtrinsic m.node x)
  | proceed timeline =>
    have hstep := m.advances config timeline
    rw [Making.next]
    generalize m.advance config timeline = m' at hstep
    cases hstep with
    | spent hstage _ | headless hstage _ | chose hstage _ _ | pulled hstage | empty hstage =>
      exact .of_attempts rfl (h.attempts_eq (by rw [hstage]; rfl))
    | registered hstage => exact .register (h.attempts_eq (by rw [hstage]; rfl)) _ _ _
    | unsealed hstage _ => exact h.close (by rw [hstage]; rfl) (List.Subset.refl _)
    | @found a tip hstage _ =>
      have htoken : m.stage.token? = some a.token := by rw [hstage]; rfl
      exact ⟨fun t ht => htoken.symm.trans (h.registered t ht), fun ht => h.watched (htoken.trans ht),
        fun ht => h.cancelled (htoken.trans ht)⟩
    | closed hstage =>
      obtain ⟨n₁, hreports, hend⟩ := hm.reports_submitSealed hstage
      refine h.close (by rw [hstage]; rfl) ?_
      rcases hend with ⟨outcome, hend⟩ | ⟨-, ending, -, hend⟩ <;> rw [hend] <;>
        exact hreports.attempts
    | done _ => exact h

/-- **A sealed block is given up, unless its parent is the canonical tip** and this did not move since
the attempt was registered. -/
theorem gives_up_or_current (h : m.Guarded) (hm : m.Steady I K) (hstage : m.stage = .sealed a tip) :
    m.node.GivesUp a tip ∨ (tip.parent = m.node.forkChoice.best ∧ ¬ m.Disturbed) := by
  have hholds := hm.holds
  rw [hstage] at hholds
  obtain ⟨-, xs, ctx, hmade⟩ := hholds
  have hparent := (Candidate.follows_of_complete hmade).parent_eq
  rcases m.node.submitSealed_cases a tip with ⟨hend, -⟩ | ⟨hclear, hbest, -⟩
  · exact Or.inl hend
  · refine Or.inr ⟨hparent.trans hbest.symm, fun hdisturbed => ?_⟩
    rw [h.cancelled (by rw [hstage]; rfl) hdisturbed] at hclear
    cases hclear

/-! ### Parents -/

/-- The parent of the attempt was the canonical tip of a node that became the present one, and the
news since then tell whether the canonical tip moved. -/
def Traced (R : ChainTip → ChainTip → Prop) (params : Params) (genesis : ChainTip) (m : Making) :
    Prop :=
  ∀ p, m.stage.parent? = some p → ∃ n₀ : Node, n₀.Kept R params genesis ∧
    Run (Placed R) n₀ m.node ∧ n₀.canonicalTip? = some p ∧ Climbs m.sinceParent n₀ m.node

/-- The parent of an attempt is the canonical tip that was read first, and stays the parent. -/
theorem Advances.parent? {timeline : Timeline} {p : ChainTip} (h : m.Advances config timeline m')
    (hp : m'.stage.parent? = some p) :
    (m.node.canonicalTip? = some p ∧ m'.node = m.node ∧ m'.sinceParent = []) ∨
      (m.stage.parent? = some p ∧ (∀ a tip, m.stage ≠ .sealed a tip) ∧
        m'.sinceParent = m.sinceParent) := by
  have hend : ∀ ending, (m.close ending).stage.parent? = none := by
    rintro ⟨_ | _ | _, n'⟩ <;> rfl
  cases h with
  | chose hstage _ htip => exact Or.inl ⟨htip.trans hp, rfl, rfl⟩
  | pulled hstage | registered hstage | found hstage _ =>
    rw [hstage]
    exact Or.inr ⟨hp, fun _ _ h => (by cases h), rfl⟩
  | unsealed | closed =>
    rw [hend] at hp
    cases hp
  | done hstage =>
    rw [hstage] at hp
    cases hp
  | spent | headless | empty => cases hp

/-- **Every move keeps track of the parent.** -/
theorem Traced.next (h : m.Traced R params genesis) (hR : Linking params.consensus R)
    (hm : m.Steady (Node.Kept R params genesis) Stands) (config : AuthoringConfig)
    (move : MakingMove) : (m.next config move).Traced R params genesis := by
  intro p hp
  obtain ⟨hrun, -⟩ := hm.next (admits_placed hR) Kept.sound config move
  have hclimbs := hm.climbs config move
  cases move with
  | event event =>
    obtain ⟨n₀, hkept, hbefore, hp₀, hbelow⟩ := h p hp
    exact ⟨n₀, hkept, hbefore.trans hrun, hp₀, hbelow.trans hclimbs⟩
  | submit x =>
    obtain ⟨n₀, hkept, hbefore, hp₀, hbelow⟩ := h p hp
    exact ⟨n₀, hkept, hbefore.trans hrun, hp₀, hbelow.trans hclimbs⟩
  | proceed timeline =>
    rcases (m.advances config timeline).parent? hp with
      ⟨hread, hnode, hsince⟩ | ⟨hparent, hsealed, hsince⟩
    · refine ⟨m.node, hm.inv, hrun, hread, ?_⟩
      rw [Making.next, hnode, hsince]
      exact climbs_nil rfl
    · obtain ⟨n₀, hkept, hbefore, hp₀, hbelow⟩ := h p hparent
      refine ⟨n₀, hkept, hbefore.trans hrun, hp₀, ?_⟩
      have hstill : m.node.SameChain (m.advance config timeline).node :=
        sameChain_advance hsealed timeline
      have hlater := hbelow.trans (climbs_nil (congrArg ForkChoice.rank hstill.forkChoice))
      rw [List.append_nil, ← hsince] at hlater
      exact hlater

theorem best_ne_of_beats (hR : Linking params.consensus R) {n₀ n : Node} {p : ChainTip}
    (hkept : n₀.Kept R params genesis) (hrun : Run (Placed R) n₀ n)
    (hids : Store.DistinctIds n.store.journal) (hp : n₀.canonicalTip? = some p)
    (hbeats : ForkChoice.beats n.rank n₀.rank = true) : n.forkChoice.best ≠ p.id := by
  intro hbest
  have hwf := hkept.sound.wellFormed
  obtain ⟨e₀, he₀, -⟩ := hwf.best
  obtain ⟨e, he, -⟩ := (hrun.kept hR hkept).sound.wellFormed.best
  have hsame : n.forkChoice.best = n₀.forkChoice.best := hbest.trans (id_of_canonicalTip hwf hp)
  have hweight := hrun.weight_eq hR hkept hids he₀ (hsame ▸ he)
  have hrank : n.rank = n₀.rank := by
    rw [rank, rank, ForkChoice.rank_eq he, ForkChoice.rank_eq he₀, hsame, hweight]
  rw [hrank, ForkChoice.beats_irrefl] at hbeats
  cases hbeats

/-- **A block on a parent that was overtaken is given up.** -/
theorem Traced.gives_up (h : m.Traced R params genesis) (hR : Linking params.consensus R)
    (hids : Store.DistinctIds m.node.store.journal) (hstage : m.stage = .sealed a tip)
    (hovertaken : m.Overtaken) : m.node.GivesUp a tip := by
  obtain ⟨n₀, hkept, hrun, hp, hclimbs⟩ := h a.parent (by rw [hstage]; rfl)
  have hne := best_ne_of_beats hR hkept hrun hids hp (hclimbs.moved hovertaken)
  rcases m.node.submitSealed_cases a tip with ⟨hend, -⟩ | ⟨-, hbest, -⟩
  · exact hend
  · exact absurd hbest hne

/-! ### Authors without success -/

/-- What an author returns that gave up all its blocks. -/
def Fruitless (config : AuthoringConfig) (result : Except AuthoringError AuthoredBlock) : Prop :=
  result = .error (.tooManyAttempts config.maxAttempts) ∨ result = .error .nothingToAuthor ∨
    ∃ e, e ≠ .sealCancelled ∧ result = .error (.sealFailed e)

theorem Advances.fruitless {timeline : Timeline} (h : m.Advances config timeline m')
    (hwf : m.node.forkChoice.WellFormed)
    (hup : ∀ a tip, m.stage = .sealed a tip → m.node.GivesUp a tip)
    (hbefore : ∀ result, m.stage = .returned result → Fruitless config result)
    {result : Except AuthoringError AuthoredBlock} (hresult : m'.stage = .returned result) :
    Fruitless config result := by
  -- an author returns from four kinds of steps
  cases h with
  | spent _ _ =>
    cases hresult
    exact Or.inl rfl
  | headless _ hnone =>
    obtain ⟨e, -, htip⟩ := exists_canonicalTip hwf
    rw [hnone] at htip
    cases htip
  | empty _ =>
    cases hresult
    exact Or.inr (Or.inl rfl)
  | @unsealed a e _ _ =>
    simp only [Making.close, abandon] at hresult
    split at hresult <;> cases hresult
    rename_i hother
    exact Or.inr (Or.inr ⟨e, hother, rfl⟩)
  | @closed a tip hstage =>
    have hend : m.node.submitSealed a tip = _ := hup a tip hstage
    rw [Making.close, hend] at hresult
    cases hresult
  | done hstage => exact hbefore result hresult
  | chose | pulled | registered | found => cases hresult

end Making

namespace Node

open Making

variable {I : Node → Prop} {K A : Node → ChainTip → Prop} {R : ChainTip → ChainTip → Prop}
  {params : Params} {genesis : ChainTip} {n : Node} {config : AuthoringConfig}
  {moves : List MakingMove}

/-! ### All moves of an author -/

theorem making_append (n : Node) (config : AuthoringConfig) (moves moves' : List MakingMove) :
    n.making config (moves ++ moves') = (n.making config moves).run config moves' :=
  Making.run_append _ config moves moves'

theorem steady_making (hA : Admits I K A) (hI : ∀ {n}, I n → n.Sound) (hn : I n)
    (horder : n.Orderly) (config : AuthoringConfig) (moves : List MakingMove) :
    Run A n (n.making config moves).node ∧ (n.making config moves).Steady I K :=
  (Steady.start hn (hI hn) horder config.maxAttempts).run hA hI config moves

/-- **An author leaves no attempt uncancelled that was disturbed**, and none registered that it is
done with. -/
theorem guarded_making (hsound : n.Sound) (horder : n.Orderly) (hnone : n.attempts = [])
    (config : AuthoringConfig) (moves : List MakingMove) : (n.making config moves).Guarded := by
  have hall : (n.making config moves).Steady Sound Written ∧ (n.making config moves).Guarded :=
    run_induct (P := fun m => m.Steady Sound Written ∧ m.Guarded)
      (fun move h => ⟨(h.1.next admits_sound id config move).2, h.2.next h.1 config move⟩)
      ⟨.start hsound hsound horder _, .of_attempts rfl hnone⟩ moves
  exact hall.2

theorem traced_making (hR : Linking params.consensus R) (hn : n.Kept R params genesis)
    (horder : n.Orderly) (config : AuthoringConfig) (moves : List MakingMove) :
    (n.making config moves).Traced R params genesis := by
  have hall : (n.making config moves).Steady (Kept R params genesis) Stands ∧
      (n.making config moves).Traced R params genesis :=
    run_induct
      (P := fun m => m.Steady (Kept R params genesis) Stands ∧ m.Traced R params genesis)
      (fun move h => ⟨(h.1.next (admits_placed hR) Kept.sound config move).2,
        h.2.next hR h.1 config move⟩)
      ⟨.start hn hn.sound horder _, fun p hp => by cases hp⟩ moves
  exact hall.2

/-- Whenever the author is about to submit a block, the canonical tip has moved since the parent was
read. -/
def AlwaysOvertaken (n : Node) (config : AuthoringConfig) (moves : List MakingMove) : Prop :=
  ∀ before timeline a tip, before ++ [.proceed timeline] <+: moves →
    (n.making config before).stage = .sealed a tip → (n.making config before).Overtaken

theorem AlwaysOvertaken.gives_up (h : n.AlwaysOvertaken config moves)
    (hR : Linking params.consensus R) (hn : n.Kept R params genesis) (horder : n.Orderly)
    (hids : Store.DistinctIds (n.making config moves).node.store.journal)
    {before : List MakingMove} {timeline : Timeline} {a : Attempt} {tip : ChainTip}
    (hpart : before ++ [.proceed timeline] <+: moves)
    (hstage : (n.making config before).stage = .sealed a tip) :
    (n.making config before).node.GivesUp a tip := by
  have htraced := traced_making hR hn horder config before
  obtain ⟨-, hsteady⟩ := steady_making (admits_placed hR) Kept.sound hn horder config before
  have hmoved := h before timeline a tip hpart hstage
  obtain ⟨rest, hmoves⟩ := hpart
  rw [List.append_assoc] at hmoves
  rw [← hmoves, making_append] at hids
  obtain ⟨hrun, -⟩ := hsteady.run (admits_placed hR) Kept.sound config ([.proceed timeline] ++ rest)
  have hlater : (n.making config before).node.store.Later _ := Run.later hrun
  exact htraced.gives_up hR (hids.of_suffix hlater.suffix) hstage hmoved

/-- **An author that is always overtaken submits no block**, and returns without success. -/
theorem AlwaysOvertaken.fruitless (h : n.AlwaysOvertaken config moves)
    (hR : Linking params.consensus R) (hn : n.Kept R params genesis) (horder : n.Orderly)
    (hids : Store.DistinctIds (n.making config moves).node.store.journal) :
    (∀ before timeline, before ++ [.proceed timeline] <+: moves →
      (n.making config before).node.SameChain
        (n.making config (before ++ [.proceed timeline])).node) ∧
    ∀ result, (n.making config moves).stage = .returned result → Fruitless config result := by
  have hup : ∀ before timeline a tip, before ++ [.proceed timeline] <+: moves →
      (n.making config before).stage = .sealed a tip →
      (n.making config before).node.GivesUp a tip := fun _ _ _ _ hpart hstage =>
    h.gives_up hR hn horder hids hpart hstage
  -- from here on only that no sealed block is submitted matters
  clear h hids
  refine ⟨fun before timeline hpart => ?_, ?_⟩
  · rw [making_append]
    by_cases hsealed : ∃ a tip, (n.making config before).stage = .sealed a tip
    · obtain ⟨a, tip, hstage⟩ := hsealed
      have hend : (n.making config before).node.submitSealed a tip = _ :=
        hup before timeline a tip hpart hstage
      simp only [Making.run, List.foldl_cons, List.foldl_nil, Making.next, advance, hstage,
        Making.close, hend]
      exact (sameChain_unregister _ _).trans (sameChain_giveBack _ _)
    · simp only [not_exists] at hsealed
      exact sameChain_advance hsealed timeline
  · induction moves using List.reverseRecOn with
    | nil => exact fun result hresult => by cases hresult
    | append_singleton before move ih =>
      have hbefore := ih fun before' timeline a tip hpart =>
        hup before' timeline a tip (hpart.trans (List.prefix_append _ _))
      intro result hresult
      rw [making_append] at hresult
      cases move with
      | event event => exact hbefore result hresult
      | submit x => exact hbefore result hresult
      | proceed timeline =>
        obtain ⟨-, hsteady⟩ := steady_making (admits_placed hR) Kept.sound hn horder config before
        exact (Making.advances _ config timeline).fruitless hsteady.sound.wellFormed
          (fun a tip => hup before timeline a tip (List.prefix_refl _)) hbefore hresult

end Node

end LedgerChain
