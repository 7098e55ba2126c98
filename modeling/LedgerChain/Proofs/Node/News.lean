import LedgerChain.Proofs.Mempool
import LedgerChain.Proofs.Node.Acts

/-!
# News

What other operations mean for an author at work can be told as **news** (`News`): decisions on
blocks, and extrinsics that were submitted.  The news of an operation are read off the blocks that it
hands in (`Node.eventNews`), and report what it does to three things (`Node.Reports`).

* The pool is what it was before, with the news taken in one after the other (`Mempool.hear`).  An
  extrinsic that became canonical is not pending afterwards, unless it comes back
  (`Mempool.of_contains_tell`).
* The canonical tip gets strictly better if one of the news says that it moved, and stays otherwise.
* Every sealing attempt in progress is cancelled if the canonical tip moved, and a cancelled one
  stays so.
-/

namespace LedgerChain

/-- Something that happens while a block is made. -/
inductive News where
  /-- Fork choice decided on a block. -/
  | decided (block : Block) (outcome : Outcome)
  /-- An extrinsic was submitted. -/
  | submitted (x : Extrinsic)
deriving DecidableEq

namespace News

/-- What it means for the pool. -/
def update : News → Node.PoolUpdate
  | decided block outcome => .ofOutcome block outcome
  | submitted _ => {}

/-- The canonical tip moved. -/
def MovesTip : News → Prop
  | decided _ outcome => outcome.changedCanonical = true
  | submitted _ => False

instance : DecidablePred MovesTip
  | decided _ outcome => inferInstanceAs (Decidable (outcome.changedCanonical = true))
  | submitted _ => inferInstanceAs (Decidable False)

variable [Crypto] {u : News} {id : ExtrinsicId}

/-- The extrinsic is in a block that became canonical. -/
def Includes (u : News) (id : ExtrinsicId) : Prop :=
  ∃ b ∈ u.update.apply, ∃ x ∈ b.extrinsics, x.id = id

instance : Decidable (u.Includes id) :=
  inferInstanceAs (Decidable (∃ b ∈ u.update.apply, ∃ x ∈ b.extrinsics, x.id = id))

/-- The extrinsic was submitted, or a block with it is not canonical any more, and it is in none that
became canonical instead. -/
def Returns (u : News) (id : ExtrinsicId) : Prop :=
  match u with
  | decided _ _ => (∃ b ∈ u.update.retract, ∃ x ∈ b.extrinsics, x.id = id) ∧ ¬ u.Includes id
  | submitted x => x.id = id

instance : Decidable (u.Returns id) :=
  match u with
  | decided block outcome => inferInstanceAs (Decidable
      ((∃ b ∈ (decided block outcome).update.retract, ∃ x ∈ b.extrinsics, x.id = id) ∧
        ¬ (decided block outcome).Includes id))
  | submitted x => inferInstanceAs (Decidable (x.id = id))

theorem Includes.not_returns (h : u.Includes id) : ¬ u.Returns id := by
  cases u with
  | decided block outcome => exact fun hreturns => hreturns.2 h
  | submitted x =>
    obtain ⟨b, hb, -⟩ := h
    cases hb

end News

/-! ### Pools that hear the news -/

namespace Mempool

variable [Crypto] {p : Mempool} {config : MempoolConfig} {id : ExtrinsicId} {u : News}
  {news news' : List News}

/-- The pool after blocks left and joined the canonical chain. -/
def revise (p : Mempool) (update : Node.PoolUpdate) : Mempool :=
  if update.apply.isEmpty then p
  else
    let applied := (update.apply.flatMap Block.extrinsics).map Extrinsic.id
    let returned := (update.retract.reverse.flatMap Block.extrinsics).filter fun x => x.id ∉ applied
    ((p.prune applied).giveBack returned).2

/-- The pool after a piece of news. -/
def hear (p : Mempool) : News → Mempool
  | .decided block outcome => p.revise (.ofOutcome block outcome)
  | .submitted x =>
    match p.submit x with
    | .error _ => p
    | .ok p' => p'

/-- The pool after some news. -/
def tell (p : Mempool) (news : List News) : Mempool := news.foldl hear p

theorem tell_append (p : Mempool) (news news' : List News) :
    p.tell (news ++ news') = (p.tell news).tell news' := List.foldl_append

theorem Grown.revise (h : Grown config p) (update : Node.PoolUpdate) :
    Grown config (p.revise update) := by
  rw [Mempool.revise]
  split
  · exact h
  · exact (h.prune _).giveBack _

theorem Grown.hear (h : Grown config p) (u : News) : Grown config (p.hear u) := by
  cases u with
  | decided block outcome => exact h.revise _
  | submitted x =>
    rw [Mempool.hear]
    split
    · exact h
    · rename_i hsubmit
      exact h.submit hsubmit

theorem Grown.tell (h : Grown config p) (news : List News) : Grown config (p.tell news) := by
  induction news generalizing p with
  | nil => exact h
  | cons u rest ih => exact ih (h.hear u)

/-- What is pending after blocks joined the canonical chain is in none of these, or was before the
pool took it back. -/
theorem of_contains_revise {update : Node.PoolUpdate} (h : (p.revise update).contains id = true) :
    (p.contains id = true ∨ ∃ b ∈ update.retract, ∃ x ∈ b.extrinsics, x.id = id) ∧
      ∀ b ∈ update.apply, ∀ x ∈ b.extrinsics, x.id ≠ id := by
  rw [revise] at h
  split at h
  · rename_i hnone
    rw [List.isEmpty_iff.1 hnone]
    exact ⟨Or.inl h, fun b hb => absurd hb List.not_mem_nil⟩
  have hmem : ∀ b ∈ update.apply, ∀ x ∈ b.extrinsics,
      x.id ∈ (update.apply.flatMap Block.extrinsics).map Extrinsic.id := fun b hb x hx =>
    List.mem_map_of_mem (List.mem_flatMap.2 ⟨b, hb, hx⟩)
  rcases contains_or_of_contains_giveBack h with hbefore | ⟨x, hx, rfl⟩
  · obtain ⟨hin, hnot⟩ := contains_prune.1 hbefore
    refine ⟨Or.inl hin, fun b hb x hx heq => ?_⟩
    exact hnot (heq ▸ hmem b hb x hx)
  · obtain ⟨hback, hnot⟩ := List.mem_filter.1 hx
    obtain ⟨b, hb, hxb⟩ := List.mem_flatMap.1 hback
    refine ⟨Or.inr ⟨b, List.mem_reverse.1 hb, x, hxb, rfl⟩, fun c hc y hy heq => ?_⟩
    exact of_decide_eq_true hnot (heq ▸ hmem c hc y hy)

/-- What is pending after a piece of news was pending before and did not become canonical, or comes
back. -/
theorem of_contains_hear (h : (p.hear u).contains id = true) :
    (p.contains id = true ∧ ¬ u.Includes id) ∨ u.Returns id := by
  cases u with
  | decided block outcome =>
    obtain ⟨hback, hnot⟩ := of_contains_revise h
    have hout : ¬ (News.decided block outcome).Includes id := fun ⟨b, hb, x, hx, heq⟩ =>
      hnot b hb x hx heq
    exact hback.imp (fun hin => ⟨hin, hout⟩) fun hret => ⟨hret, hout⟩
  | submitted x =>
    have hnot : ¬ (News.submitted x).Includes id := fun ⟨b, hb, _⟩ => by cases hb
    rw [hear] at h
    split at h
    · exact Or.inl ⟨h, hnot⟩
    · rename_i p' hsubmit
      obtain ⟨-, slot, hentries, -⟩ := submit_ok_cases hsubmit
      rw [contains, hentries, Table.contains, Table.find?_insert] at h
      split at h
      · rename_i heq
        exact Or.inr heq.symm
      · exact Or.inl ⟨h, hnot⟩

/-- **An extrinsic is pending after some news only if it was before, or came back.** -/
theorem of_contains_tell (h : (p.tell news).contains id = true)
    (hnone : ∀ u ∈ news, ¬ u.Returns id) : p.contains id = true ∧ ∀ u ∈ news, ¬ u.Includes id := by
  induction news generalizing p with
  | nil => exact ⟨h, fun u hu => absurd hu List.not_mem_nil⟩
  | cons u rest ih =>
    obtain ⟨hafter, hrest⟩ := ih h fun v hv => hnone v (List.mem_cons_of_mem u hv)
    obtain ⟨hin, hnot⟩ := (of_contains_hear hafter).resolve_right (hnone u List.mem_cons_self)
    exact ⟨hin, List.forall_mem_cons.2 ⟨hnot, hrest⟩⟩

/-- **An extrinsic that became canonical is not pending, unless it came back since.** -/
theorem not_contains_tell (hin : u.Includes id) (hnone : ∀ v ∈ news', ¬ v.Returns id) :
    (p.tell (news ++ u :: news')).contains id = false := by
  rw [Bool.eq_false_iff]
  intro h
  rw [tell_append] at h
  have hall : ∀ v ∈ u :: news', ¬ v.Returns id := List.forall_mem_cons.2 ⟨hin.not_returns, hnone⟩
  exact (of_contains_tell h hall).2 u List.mem_cons_self hin

end Mempool

/-! ### Flags -/

namespace CancelFlags

variable {f : CancelFlags} {t a : CancelToken} {ts : List CancelToken}

theorem length_cancel (f : CancelFlags) (a : CancelToken) :
    (f.cancel a).flags.length = f.flags.length := List.length_set

theorem isCancelled_cancel : (f.cancel a).isCancelled t = true ↔
    f.isCancelled t = true ∨ (t = a ∧ t.place < f.flags.length) := by
  obtain ⟨i⟩ := t
  obtain ⟨j⟩ := a
  simp only [isCancelled, cancel, List.getD_eq_getElem?_getD, List.getElem?_set,
    CancelToken.mk.injEq]
  by_cases hij : j = i
  · subst hij
    by_cases hlt : j < f.flags.length <;> simp [hlt]
  · simp [hij, Ne.symm hij]

theorem length_foldl_cancel (f : CancelFlags) (ts : List CancelToken) :
    (ts.foldl cancel f).flags.length = f.flags.length := by
  induction ts generalizing f with
  | nil => rfl
  | cons a rest ih => exact (ih (f.cancel a)).trans (length_cancel f a)

theorem isCancelled_foldl_cancel : (ts.foldl cancel f).isCancelled t = true ↔
    f.isCancelled t = true ∨ (t ∈ ts ∧ t.place < f.flags.length) := by
  induction ts generalizing f with
  | nil => simp
  | cons a rest ih =>
    rw [List.foldl_cons, ih, isCancelled_cancel, length_cancel, List.mem_cons]
    tauto

end CancelFlags

namespace Node

variable [Crypto] {n n' m : Node} {b : Block} {tip : ChainTip} {news news' : List News}
  {answer : Except ChainError (Outcome × PoolUpdate)}

theorem updatePool_eq (n : Node) (update : PoolUpdate) :
    n.updatePool update = { n with pool := n.pool.revise update } := by
  rw [updatePool, Mempool.revise]
  split <;> rfl

/-! ### What an author has at hand -/

/-- The second node has the same pending extrinsics and sealing attempts as the first one. -/
structure SameDesk (n n' : Node) : Prop where
  pool : n'.pool = n.pool
  flags : n'.flags = n.flags
  attempts : n'.attempts = n.attempts

omit [Crypto] in
theorem sameDesk_storeFinalized (h : n.storeFinalized = .ok n') : n.SameDesk n' := by
  rcases storeFinalized_ok_cases h with ⟨-, rfl⟩ | ⟨store, -, rfl⟩ <;> exact ⟨rfl, rfl, rfl⟩

omit [Crypto] in
theorem Settled.sameDesk (h : Settled n n') : n.SameDesk n' := by
  cases h <;> exact ⟨rfl, rfl, rfl⟩

omit [Crypto] in
theorem sameDesk_shutdown (n : Node) : n.cancelAttempts.SameDesk n.shutdown.2 := by
  simp only [shutdown]
  split
  · exact ⟨rfl, rfl, rfl⟩
  · split
    · exact ⟨rfl, rfl, rfl⟩
    · rename_i stored hstored
      have hdesk := sameDesk_storeFinalized hstored
      split <;> exact ⟨hdesk.pool, hdesk.flags, hdesk.attempts⟩

omit [Crypto] in
theorem sameDesk_reject (n : Node) (id : BlockId) (cause : ImportError) :
    n.SameDesk (n.reject id cause).2 := by
  rw [reject]
  split <;> exact ⟨rfl, rfl, rfl⟩

theorem sameDesk_holdOrphan (n : Node) (b : Block) : n.SameDesk (n.holdOrphan b).2 := by
  rw [holdOrphan]
  split
  · exact ⟨rfl, rfl, rfl⟩
  · simp only
    split <;> exact ⟨rfl, rfl, rfl⟩

/-- A decision leaves the pool to its caller.  It cancels all attempts if the canonical tip moved,
and leaves them alone otherwise. -/
theorem Decided.desk (h : Decided n tip answer n') :
    (∀ outcome update, answer = .ok (outcome, update) → update = .ofOutcome tip.block outcome) ∧
      (((∃ outcome update, answer = .ok (outcome, update) ∧ outcome.changedCanonical = true) ∧
          n.cancelAttempts.SameDesk n') ∨
        ((∀ outcome update, answer = .ok (outcome, update) → outcome.changedCanonical = false) ∧
          n.SameDesk n')) := by
  cases h with
  | unchanged _ hanswer =>
    rcases hanswer with ⟨-, rfl⟩ | ⟨-, rfl⟩ | ⟨e, rfl⟩
    · exact ⟨fun _ _ heq => (by cases heq; rfl), Or.inr ⟨fun _ _ heq => (by cases heq; rfl),
        rfl, rfl, rfl⟩⟩
    · exact ⟨fun _ _ heq => (by cases heq; rfl), Or.inr ⟨fun _ _ heq => (by cases heq; rfl),
        rfl, rfl, rfl⟩⟩
    · exact ⟨fun _ _ heq => (by cases heq), Or.inr ⟨fun _ _ heq => (by cases heq), rfl, rfl, rfl⟩⟩
  | stayed _ _ =>
    exact ⟨fun _ _ heq => (by cases heq; rfl), Or.inr ⟨fun _ _ heq => (by cases heq; rfl),
      rfl, rfl, rfl⟩⟩
  | heldBack _ _ _ _ =>
    exact ⟨fun _ _ heq => (by cases heq), Or.inr ⟨fun _ _ heq => (by cases heq), rfl, rfl, rfl⟩⟩
  | moved _ _ _ hchanged _ hsettled =>
    have hdesk := hsettled.sameDesk
    exact ⟨fun _ _ heq => (by cases heq; rfl), Or.inl ⟨⟨_, _, rfl, hchanged⟩,
      hdesk.pool, hdesk.flags, hdesk.attempts⟩⟩

/-! ### Reports -/

/-- A token stands for an attempt in progress, or is cancelled. -/
def Watches (n : Node) (t : CancelToken) : Prop :=
  t.place < n.flags.flags.length ∧ (t ∈ n.attempts ∨ n.flags.isCancelled t = true)

/-- The canonical tip gets better if one of the news says that it moved, and stays otherwise. -/
structure Climbs (news : List News) (n n' : Node) : Prop where
  moved : (∃ u ∈ news, u.MovesTip) → ForkChoice.beats n'.rank n.rank = true
  stayed : (∀ u ∈ news, ¬ u.MovesTip) → n'.rank = n.rank

omit [Crypto] in
theorem climbs_nil (hrank : n'.rank = n.rank) : Climbs [] n n' where
  moved := fun ⟨_, hu, _⟩ => absurd hu List.not_mem_nil
  stayed _ := hrank

omit [Crypto] in
theorem Climbs.trans (h : Climbs news n m) (h' : Climbs news' m n') :
    Climbs (news ++ news') n n' where
  moved := by
    intro hex
    by_cases hfirst : ∃ u ∈ news, u.MovesTip
    · by_cases hlast : ∃ u ∈ news', u.MovesTip
      · exact ForkChoice.beats_trans (h'.moved hlast) (h.moved hfirst)
      · rw [h'.stayed fun u hu hmoves => hlast ⟨u, hu, hmoves⟩]
        exact h.moved hfirst
    · obtain ⟨u, hu, hmoves⟩ := hex
      have hlast : u ∈ news' := (List.mem_append.1 hu).resolve_left fun hu => hfirst ⟨u, hu, hmoves⟩
      rw [← h.stayed fun v hv hmoves => hfirst ⟨v, hv, hmoves⟩]
      exact h'.moved ⟨u, hlast, hmoves⟩
  stayed hnone := (h'.stayed fun u hu => hnone u (List.mem_append_right _ hu)).trans
    (h.stayed fun u hu => hnone u (List.mem_append_left _ hu))

omit [Crypto] in
theorem Climbs.movesTip_iff (h : Climbs news n n') :
    (∃ u ∈ news, u.MovesTip) ↔ n'.rank ≠ n.rank := by
  constructor
  · intro hex hsame
    have hbeats := h.moved hex
    rw [hsame, ForkChoice.beats_irrefl] at hbeats
    cases hbeats
  · intro hne
    by_contra hnone
    exact hne (h.stayed fun u hu hmoves => hnone ⟨u, hu, hmoves⟩)

/-- The news report what became of the pool, the canonical tip and the sealing attempts. -/
structure Reports (news : List News) (n n' : Node) : Prop extends Climbs news n n' where
  pool : n'.pool = n.pool.tell news
  attempts : n'.attempts ⊆ n.attempts
  watched : ∀ {t}, n.Watches t → n'.Watches t
  cancelled : ∀ {t}, n.flags.isCancelled t = true → n'.flags.isCancelled t = true
  warned : (∃ u ∈ news, u.MovesTip) → ∀ {t}, n.Watches t → n'.flags.isCancelled t = true

theorem reports_of_stayed (hpool : n'.pool = n.pool.tell news) (hflags : n'.flags = n.flags)
    (hattempts : n'.attempts = n.attempts) (hrank : n'.rank = n.rank)
    (hnone : ∀ u ∈ news, ¬ u.MovesTip) : Reports news n n' where
  pool := hpool
  moved := fun ⟨u, hu, hmoves⟩ => absurd hmoves (hnone u hu)
  stayed _ := hrank
  attempts := hattempts ▸ List.Subset.refl _
  watched h := by
    rw [Watches, hflags, hattempts]
    exact h
  cancelled h := hflags ▸ h
  warned := fun ⟨u, hu, hmoves⟩ => absurd hmoves (hnone u hu)

theorem reports_nil (hrank : n'.rank = n.rank) (hdesk : n.SameDesk n') : Reports [] n n' :=
  reports_of_stayed hdesk.pool hdesk.flags hdesk.attempts hrank fun _ hu => absurd hu List.not_mem_nil

theorem Reports.trans (h : Reports news n m) (h' : Reports news' m n') :
    Reports (news ++ news') n n' where
  toClimbs := h.toClimbs.trans h'.toClimbs
  pool := by rw [Mempool.tell_append, ← h.pool, h'.pool]
  attempts _ ht := h.attempts (h'.attempts ht)
  watched ht := h'.watched (h.watched ht)
  cancelled ht := h'.cancelled (h.cancelled ht)
  warned := by
    rintro ⟨u, hu, hmoves⟩ t ht
    rcases List.mem_append.1 hu with hu | hu
    · exact h'.cancelled (h.warned ⟨u, hu, hmoves⟩ ht)
    · exact h'.warned ⟨u, hu, hmoves⟩ (h.watched ht)

theorem reports_refl (n : Node) : Reports [] n n := reports_nil rfl ⟨rfl, rfl, rfl⟩

omit [Crypto] in
theorem isCancelled_cancelAttempts {t : CancelToken} (ht : n.Watches t) :
    n.cancelAttempts.flags.isCancelled t = true :=
  CancelFlags.isCancelled_foldl_cancel.2 (ht.2.elim (fun hmem => Or.inr ⟨hmem, ht.1⟩) Or.inl)

theorem reports_of_cancelAttempts (hpool : n'.pool = n.pool.tell news)
    (hflags : n'.flags = n.cancelAttempts.flags) (hattempts : n'.attempts = [])
    (hmoved : (∃ u ∈ news, u.MovesTip) → ForkChoice.beats n'.rank n.rank = true)
    (hstayed : (∀ u ∈ news, ¬ u.MovesTip) → n'.rank = n.rank) : Reports news n n' where
  pool := hpool
  moved := hmoved
  stayed := hstayed
  attempts := hattempts ▸ List.nil_subset _
  watched ht := by
    rw [Watches, hflags]
    exact ⟨lt_of_lt_of_eq ht.1 (CancelFlags.length_foldl_cancel _ _).symm,
      Or.inr (isCancelled_cancelAttempts ht)⟩
  cancelled ht := by
    rw [hflags]
    exact CancelFlags.isCancelled_foldl_cancel.2 (Or.inl ht)
  warned _ _ ht := by
    rw [hflags]
    exact isCancelled_cancelAttempts ht

theorem reports_shutdown (n : Node) : Reports [] n n.shutdown.2 := by
  have hdesk := sameDesk_shutdown n
  refine reports_of_cancelAttempts hdesk.pool hdesk.flags hdesk.attempts ?_ fun _ => ?_
  · rintro ⟨u, hu, -⟩
    cases hu
  · exact congrArg ForkChoice.rank n.forkChoice_shutdown

/-- **A block that is offered is news**, if it is decided on. -/
theorem reports_offer (hwf : n.forkChoice.WellFormed) (hheavy : n.Heavy tip) {outcome : Outcome}
    {update : PoolUpdate} (hok : (n.offer tip).1 = .ok (outcome, update)) :
    Reports [.decided tip.block outcome] n ((n.offer tip).2.updatePool update) := by
  rcases n.offer_cases tip with ⟨e, heq⟩ | ⟨store, -, heq⟩ <;> rw [heq] at hok ⊢
  · cases hok
  have hwf' : ({ n with store } : Node).forkChoice.WellFormed := hwf
  have hd := decided_decide hwf' hheavy.weight_pos
  rw [hok] at hd
  have hrank := hd.rank_cases hwf' hheavy.weight_pos
  obtain ⟨hupdate, hdesk⟩ := hd.desk
  rw [hupdate outcome update rfl, updatePool_eq]
  rcases hdesk with ⟨⟨_, _, heq, hchanged⟩, hdesk⟩ | ⟨hunchanged, hdesk⟩
  · cases heq
    have hbeats := (hrank.resolve_right fun hstill => by
      rw [hstill.1 _ _ rfl] at hchanged
      cases hchanged).2
    refine reports_of_cancelAttempts ?_ hdesk.flags hdesk.attempts (fun _ => hbeats) fun hnone => ?_
    · rw [hdesk.pool]
      rfl
    · exact absurd hchanged (hnone _ (List.mem_singleton_self _))
  · have hstill := hunchanged _ _ rfl
    have hsame := (hrank.resolve_left fun ⟨⟨_, _, heq, hchanged⟩, _⟩ => by
      cases heq
      rw [hstill] at hchanged
      cases hchanged).2.1
    refine reports_of_stayed ?_ hdesk.flags hdesk.attempts hsame fun u hu hmoves => ?_
    · rw [hdesk.pool]
      rfl
    · rw [List.mem_singleton.1 hu, News.MovesTip, hstill] at hmoves
      cases hmoves

theorem reports_offer_error (hwf : n.forkChoice.WellFormed) (hheavy : n.Heavy tip) {e : ChainError}
    (herror : (n.offer tip).1 = .error e) : Reports [] n (n.offer tip).2 := by
  rcases n.offer_cases tip with ⟨e', heq⟩ | ⟨store, -, heq⟩ <;> rw [heq] at herror ⊢
  · exact reports_refl n
  have hwf' : ({ n with store } : Node).forkChoice.WellFormed := hwf
  have hd := decided_decide hwf' hheavy.weight_pos
  rw [herror] at hd
  have hsame := (hd.rank_cases hwf' hheavy.weight_pos).resolve_left fun ⟨⟨_, _, heq, _⟩, _⟩ => by
    cases heq
  have hdesk := hd.desk.2.resolve_left fun ⟨⟨_, _, heq, _⟩, _⟩ => by cases heq
  exact reports_nil hsame.2.1 ⟨hdesk.2.pool, hdesk.2.flags, hdesk.2.attempts⟩

end Node

/-! ### The news of an operation -/

variable [Crypto]

omit [Crypto] in
/-- A block that is handed in is news if it is accepted. -/
def News.ofAnswer (b : Block) : ImportAnswer → List News
  | .ok (.accepted outcome) => [.decided b outcome]
  | _ => []

omit [Crypto] in
theorem News.ofAnswer_eq_nil (b : Block) {result : ImportResult} (h : result.isAccepted = false) :
    ofAnswer b (.ok result) = [] := by
  cases result with
  | accepted _ => cases h
  | ignored _ => rfl
  | pendingParent => rfl
  | rejected _ => rfl

/-- The news of a block that is handed in. -/
def Handing.news (h : Handing) : List News := News.ofAnswer h.block h.answer

/-- The news of some blocks that are handed in. -/
def Handing.newsOf (log : List Handing) : List News := log.flatMap news

namespace Node

variable {n n' : Node} {b : Block} {tip : ChainTip} {rest : List Block} {stack : List BlockId}
  {log : List Handing} {ending : Except ChainError Unit}

theorem reports_of_sameChain (hchain : n.SameChain n') (hdesk : n.SameDesk n') :
    Reports [] n n' :=
  reports_nil (congrArg ForkChoice.rank hchain.forkChoice) hdesk

theorem reports_takeOrphans (n : Node) (parent : BlockId) :
    Reports [] n (n.takeOrphans parent).2 := by
  refine reports_of_sameChain (sameChain_takeOrphans n parent) ?_
  rw [takeOrphans]
  split <;> exact ⟨rfl, rfl, rfl⟩

theorem Reports.of_ignored {reason : IgnoreReason}
    (h : Reports [.decided b (.ignored reason)] n n') : Reports [] n n' where
  pool := h.pool
  moved := fun ⟨_, hu, _⟩ => absurd hu List.not_mem_nil
  stayed _ := h.stayed fun u hu => by
    rw [List.mem_singleton.1 hu]
    exact Bool.false_ne_true
  attempts := h.attempts
  watched := h.watched
  cancelled := h.cancelled
  warned := fun ⟨_, hu, _⟩ => absurd hu List.not_mem_nil

/-- **The news of a block that is handed in report what it does.** -/
theorem reports_importOne (x : Handing) (hn : x.node.Sound) : Reports x.news x.node x.after := by
  obtain ⟨n, b⟩ := x
  have hhandled := handled_importOne n b
  simp only [Handing.news, Handing.after, Handing.answer]
  generalize (n.importOne b).1 = answer at hhandled
  generalize (n.importOne b).2 = n' at hhandled
  cases hhandled with
  | passed hnot _ =>
    rw [News.ofAnswer_eq_nil b hnot]
    exact reports_refl n
  | unread _ => exact reports_refl n
  | @refused cause _ =>
    exact reports_of_sameChain (sameChain_reject n b.id cause) (sameDesk_reject n b.id cause)
  | held _ _ _ _ =>
    rw [News.ofAnswer_eq_nil b (isAccepted_holdOrphan n b)]
    exact reports_of_sameChain (sameChain_holdOrphan n b) (sameDesk_holdOrphan n b)
  | failed hchecks hoffer => exact reports_offer_error hn.wellFormed hchecks.heavy hoffer
  | @decided tip outcome update hchecks hoffer =>
    have hreports := reports_offer hn.wellFormed hchecks.heavy hoffer
    rw [hchecks.block_eq] at hreports
    cases outcome with
    | extended => exact hreports
    | switched _ _ => exact hreports
    | ignored reason =>
      cases reason with
      | notBetter => exact hreports
      | alreadyKnown => exact hreports.of_ignored
      | stale => exact hreports.of_ignored

/-- **The news of a cascade report what it does.** -/
theorem Cascade.reports (h : Cascade rest stack n log ending n') (hn : n.Sound) :
    Reports (Handing.newsOf log) n n' := by
  refine h.relate (P := fun log n n' => Reports (Handing.newsOf log) n n') (F := fun _ => True)
    reports_refl (fun h h' => ?_) reports_takeOrphans (fun x hx _ => ?_) hn trivial
  · rw [Handing.newsOf, List.flatMap_append]
    exact h.trans h'
  · rw [Handing.newsOf, List.flatMap_singleton]
    exact reports_importOne x hx

theorem reports_submitExtrinsic (n : Node) (x : Extrinsic) :
    Reports [.submitted x] n (n.submitExtrinsic x).2 := by
  have hrank : (n.submitExtrinsic x).2.rank = n.rank :=
    congrArg ForkChoice.rank (sameChain_submitExtrinsic n x).forkChoice
  refine reports_of_stayed ?_ ?_ ?_ hrank fun u hu hmoves => ?_
  · rw [submitExtrinsic, Mempool.tell, List.foldl_cons, List.foldl_nil, Mempool.hear]
    cases n.pool.submit x <;> rfl
  · rw [submitExtrinsic]
    split <;> rfl
  · rw [submitExtrinsic]
    split <;> rfl
  · rw [List.mem_singleton.1 hu] at hmoves
    exact hmoves

/-- The news of an operation that comes in. -/
def eventNews (n : Node) (event : NodeEvent) : List News := Handing.newsOf (n.eventHandings event)

/-- **The news of an operation that comes in report what it does.** -/
theorem reports_handle (hn : n.Orderly) (hsound : n.Sound) (event : NodeEvent) :
    Reports (n.eventNews event) n (n.handle event).2 := by
  cases event with
  | importBlock b => exact (hn.cascade_importBlock b).reports hsound
  | shutdown => exact reports_shutdown n

end Node

end LedgerChain
