import LedgerChain.Proofs.Node.Steady

/-!
# Extrinsics in the hands of an author

While an author is at work, an extrinsic can be pending, or in the author's hands, or neither.  A
move does one of four things to the two (`Making.Passes`): the pool hears the news, or hands
extrinsics out, or takes them back, or the author leaves some out.

* **What is neither pending nor in hand stays so**, unless the news bring it back
  (`Making.absent_run`).
* Whatever becomes canonical leaves the pool, and so is neither, unless it is in hand
  (`Making.Passes.absent_of_includes`).
* What is in hand when an attempt ends without a block is pending afterwards
  (`Making.contains_of_ended`).  The author does not look whether it became canonical meanwhile.
* What is in hand was pending, so it is within the limits of the pool (`Making.Passes.limited`).
-/

namespace LedgerChain

variable [Crypto]

namespace Making

open Node

variable {I : Node → Prop} {K A : Node → ChainTip → Prop} {m : Making} {config : AuthoringConfig}
  {limits : MempoolConfig} {max : Nat} {news l r : List News} {p p' : Mempool}
  {xs ys : List Extrinsic} {id : ExtrinsicId} {u : News}

/-! ### Moves -/

/-- What a move can do to a pool and to what is in hand. -/
inductive Passes (max : Nat) (news : List News) :
    Mempool → List Extrinsic → Mempool → List Extrinsic → Prop
  | heard (p : Mempool) (xs : List Extrinsic) : Passes max news p xs (p.tell news) xs
  | pulled (p : Mempool) (hnews : news = []) : Passes max news p [] (p.pull max).2 (p.pull max).1
  | left (p : Mempool) {xs ys : List Extrinsic} (hnews : news = []) (hsub : ys ⊆ xs)
      (hle : ys.length ≤ xs.length) : Passes max news p xs p ys
  | returned (p : Mempool) (xs : List Extrinsic) (hnews : news = []) :
      Passes max news p xs (p.giveBack xs).2 []

theorem Passes.refl (max : Nat) (p : Mempool) (xs : List Extrinsic) : Passes max [] p xs p xs :=
  .heard p xs

omit [Crypto] in
theorem hand_ofEnd_of_inVain (excluded : List (ExtrinsicId × ExtrinsicError)) {ending : AttemptEnd}
    (h : AttemptEnd.InVain ending) : (Stage.ofEnd excluded ending).hand = [] := by
  rcases h with rfl | ⟨e, rfl⟩ <;> rfl

/-- **A move does one of four things** to the pool and to what is in hand. -/
theorem Steady.passes (h : m.Steady I K) (config : AuthoringConfig) (move : MakingMove) :
    Passes config.maxExtrinsics (m.news move) m.node.pool m.stage.hand
      (m.next config move).node.pool (m.next config move).stage.hand := by
  cases move with
  | event event =>
    have hpool := (h.reports_event event).pool
    simp only [Making.next, tell, Making.news]
    rw [hpool]
    exact .heard _ _
  | submit x =>
    have hpool := (reports_submitExtrinsic m.node x).pool
    simp only [Making.next, tell, Making.news]
    rw [hpool]
    exact .heard _ _
  | proceed timeline =>
    have hstep := m.advances config timeline
    rw [Making.news, Making.next]
    generalize m.advance config timeline = m' at hstep
    -- the steps that leave pool and hands alone come first
    cases hstep with
    | spent hstage _ | headless hstage _ | chose hstage _ _ | done hstage =>
      simp only [hstage]
      exact .refl _ _ _
    | pulled hstage =>
      simp only [hstage]
      exact .pulled _ rfl
    | empty hstage =>
      simp only [hstage]
      exact .left _ rfl (List.nil_subset _) (Nat.zero_le _)
    | @registered parent xs _ hstage =>
      simp only [hstage]
      exact .left _ rfl (fun _ => Candidate.mem_of_mem_prepare)
        (Candidate.length_prepare_le parent xs)
    | @unsealed a e hstage _ =>
      have hnone : (m.close (m.node.abandon a e)).stage.hand = [] := by
        simp only [close, abandon]
        split <;> rfl
      simp only [hstage, hnone]
      exact .returned _ _ rfl
    | @found a tip hstage hseal =>
      have hsame : (Stage.sealed a tip).hand = a.candidate.extrinsics :=
        Candidate.extrinsics_of_complete hseal
      simp only [hstage, hsame]
      exact .refl _ _ _
    | @closed a tip hstage =>
      obtain ⟨n₁, hreports, hend⟩ := h.reports_submitSealed hstage
      have hpool : n₁.pool = m.node.pool.tell (m.node.sealedNews a tip) := hreports.pool
      simp only [hstage]
      rcases hend with ⟨outcome, hend⟩ | ⟨hnews, ending, hvain, hend⟩
      · simp only [close, hend, hpool]
        exact .heard _ _
      · rw [hnews] at hpool
        have hpool' : n₁.pool = m.node.pool := hpool
        simp only [close, hend, giveBack, hpool', hand_ofEnd_of_inVain m.excluded hvain, hnews]
        exact .returned _ _ rfl

/-! ### What stays out -/

/-- The extrinsic is neither pending nor in hand. -/
structure Absent (id : ExtrinsicId) (p : Mempool) (xs : List Extrinsic) : Prop where
  pool : p.contains id = false
  hand : ∀ x ∈ xs, x.id ≠ id

theorem Passes.grown (h : Passes max news p xs p' ys) (hp : p.Grown limits) : p'.Grown limits := by
  cases h with
  | heard => exact hp.tell news
  | pulled => exact hp.pull max
  | left => exact hp
  | returned => exact hp.giveBack xs

/-- What is neither pending nor in hand comes back with the news, or not at all. -/
theorem Passes.absent (h : Passes max news p xs p' ys) (hp : p.Grown limits)
    (hnone : ∀ v ∈ news, ¬ v.Returns id) (habsent : Absent id p xs) : Absent id p' ys := by
  cases h with
  | heard =>
    refine ⟨Bool.eq_false_iff.2 fun hin => ?_, habsent.hand⟩
    have hbefore := (Mempool.of_contains_tell hin hnone).1
    rw [habsent.pool] at hbefore
    cases hbefore
  | pulled =>
    refine ⟨Bool.eq_false_iff.2 fun hin => ?_, fun x hx heq => ?_⟩
    · have hbefore := (Mempool.contains_prune.1 hin).1
      rw [habsent.pool] at hbefore
      cases hbefore
    · have hbefore := (hp.tidy.of_mem_pull hx).1
      rw [heq, habsent.pool] at hbefore
      cases hbefore
  | left _ hsub _ => exact ⟨habsent.pool, fun x hx => habsent.hand x (hsub hx)⟩
  | returned =>
    refine ⟨Bool.eq_false_iff.2 fun hin => ?_, fun x hx => absurd hx List.not_mem_nil⟩
    rcases Mempool.contains_or_of_contains_giveBack hin with hbefore | ⟨x, hx, heq⟩
    · rw [habsent.pool] at hbefore
      cases hbefore
    · exact habsent.hand x hx heq

/-- **What becomes canonical while it is not in hand is gone.** -/
theorem Passes.absent_of_includes (h : Passes max news p xs p' ys) (hnews : news = l ++ u :: r)
    (hin : u.Includes id) (hnone : ∀ v ∈ r, ¬ v.Returns id) (hhand : ∀ x ∈ xs, x.id ≠ id) :
    Absent id p' ys := by
  have hsome : news ≠ [] := by
    rw [hnews]
    exact List.append_ne_nil_of_right_ne_nil l (List.cons_ne_nil u r)
  cases h with
  | heard => exact ⟨hnews ▸ Mempool.not_contains_tell hin hnone, hhand⟩
  | pulled hempty => exact absurd hempty hsome
  | left hempty _ _ => exact absurd hempty hsome
  | returned _ hempty => exact absurd hempty hsome

/-- What is in hand is within the limits of the pool, and no more than is pulled at once. -/
def Limited (limits : MempoolConfig) (max : Nat) (xs : List Extrinsic) : Prop :=
  xs.length ≤ max ∧ ∀ x ∈ xs, limits.Allows x

omit [Crypto] in
theorem limited_nil (limits : MempoolConfig) (max : Nat) : Limited limits max [] :=
  ⟨Nat.zero_le _, fun _ hx => absurd hx List.not_mem_nil⟩

theorem Passes.limited (h : Passes max news p xs p' ys) (hp : p.Grown limits)
    (hxs : Limited limits max xs) : Limited limits max ys := by
  cases h with
  | heard => exact hxs
  | pulled => exact ⟨p.length_pull_le max, fun x hx => (hp.tidy.of_mem_pull hx).2⟩
  | left _ hsub hle => exact ⟨Nat.le_trans hle hxs.1, fun x hx => hxs.2 x (hsub hx)⟩
  | returned => exact limited_nil limits max

theorem limited_run (hA : Admits I K A) (hI : ∀ {n}, I n → n.Sound) (h : m.Steady I K)
    (hp : m.node.pool.Grown limits) (hxs : Limited limits config.maxExtrinsics m.stage.hand)
    (moves : List MakingMove) :
    (m.run config moves).node.pool.Grown limits ∧
      Limited limits config.maxExtrinsics (m.run config moves).stage.hand := by
  have hall : (m.run config moves).Steady I K ∧ (m.run config moves).node.pool.Grown limits ∧
      Limited limits config.maxExtrinsics (m.run config moves).stage.hand := by
    refine run_induct (P := fun m => m.Steady I K ∧ m.node.pool.Grown limits ∧
      Limited limits config.maxExtrinsics m.stage.hand) (fun move h => ?_) ⟨h, hp, hxs⟩ moves
    have hpasses := h.1.passes config move
    exact ⟨(h.1.next hA hI config move).2, hpasses.grown h.2.1, hpasses.limited h.2.1 h.2.2⟩
  exact hall.2

/-- **What is neither pending nor in hand stays so**, unless the news bring it back. -/
theorem absent_run (hA : Admits I K A) (hI : ∀ {n}, I n → n.Sound) (h : m.Steady I K)
    (hp : m.node.pool.Grown limits) (config : AuthoringConfig) {moves : List MakingMove}
    (hnone : ∀ v ∈ m.newsOf config moves, ¬ v.Returns id)
    (habsent : Absent id m.node.pool m.stage.hand) :
    Absent id (m.run config moves).node.pool (m.run config moves).stage.hand := by
  induction moves generalizing m with
  | nil => exact habsent
  | cons move rest ih =>
    have hpasses := h.passes config move
    have hfirst := hpasses.absent hp (fun v hv => hnone v (List.mem_append_left _ hv)) habsent
    exact ih (h.next hA hI config move).2 (hpasses.grown hp)
      (fun v hv => hnone v (List.mem_append_right _ hv)) hfirst

/-- **What is in hand when an attempt ends without a block is pending afterwards**, if it is within
the limits and the pool is not full. -/
theorem contains_of_ended (h : m.Steady I K) (hp : m.node.pool.Grown limits) {timeline : Timeline}
    (hattempt : m.stage.token? ≠ none) (hend : (m.advance config timeline).stage.hand = [])
    {x : Extrinsic} (hx : x ∈ m.stage.hand) (hallowed : limits.Allows x) :
    (m.advance config timeline).node.pool.contains x.id = true ∨
      limits.capacity ≤ (m.advance config timeline).node.pool.size := by
  have hstep := m.advances config timeline
  generalize m.advance config timeline = m' at hend hstep
  have hreturned : m'.node.pool = (m.node.pool.giveBack m.stage.hand).2 := by
    cases hstep with
    | unsealed hstage _ => rw [hstage]; rfl
    | @found a tip hstage hseal =>
      have hsame : (Stage.sealed a tip).hand = a.candidate.extrinsics :=
        Candidate.extrinsics_of_complete hseal
      rw [hstage, Stage.hand, ← hsame, hend] at hx
      cases hx
    | @closed a tip hstage =>
      obtain ⟨n₁, hreports, ⟨outcome, hmade⟩ | ⟨hnews, ending, -, hvain⟩⟩ :=
        h.reports_submitSealed hstage
      · rw [close, hmade] at hend
        rw [hstage, Stage.hand, show tip.block.extrinsics = [] from hend] at hx
        cases hx
      · have hpool := hreports.pool
        rw [hnews] at hpool
        have hpool' : n₁.pool = m.node.pool := hpool
        simp only [close, hvain, giveBack, hpool', hstage, Stage.hand]
    | spent hstage _ | headless hstage _ | chose hstage _ _ | pulled hstage | empty hstage
    | registered hstage | done hstage => simp [hstage, Stage.token?] at hattempt
  have hconfig := hp.tidy.config_eq
  rw [hreturned, ← hconfig]
  have hback := Mempool.contains_giveBack hx (hconfig.symm ▸ hallowed)
  exact hback

end Making

end LedgerChain
