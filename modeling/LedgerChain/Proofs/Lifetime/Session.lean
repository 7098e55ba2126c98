import LedgerChain.Proofs.Lifetime.Basic
import LedgerChain.Proofs.Node.Session

/-!
# Sessions within a lifetime

Between two starts the events of a lifetime are a session of the node that is at work
(`Lifetime.exists_session`), and every node has become what it is in the session after its last start
(`Lifetime.exists_last_start`).  So what holds of every node that starts, and is kept by every move of
a session, holds of all nodes of a lifetime (`Lifetime.node_induct`).
-/

namespace LedgerChain

/-- An event within a session: the node does something, or its store begins to fail or is
repaired. -/
def LifeEvent.InSession : LifeEvent → Prop
  | .operate _ => True
  | .setFaults _ => True
  | .restart _ => False
  | .crash _ => False

namespace Lifetime

variable [Crypto] {params : Params} {initial : State} {events : List LifeEvent} {m n : Node}

theorem exists_next_session (initial : State) (hsound : (running m).Sound params)
    {event : LifeEvent} (hsession : event.InSession) :
    ∃ n, (running m).next params initial event = running n ∧ m.Session n := by
  have hwf := (hsound.node rfl).1.wellFormed
  cases event with
  | operate operation =>
    exact ⟨m.perform operation, rfl, .of_run (Node.admits_heavy.perform hwf operation)⟩
  | setFaults faults => exact ⟨_, rfl, .single (.setFaults m faults)⟩
  | restart pool => cases hsession
  | crash lost => cases hsession

/-- **Events within a session are a session of the node**, by induction over the events. -/
theorem exists_session (initial : State) (hsound : (running m).Sound params)
    {session : List LifeEvent} (hsession : ∀ event ∈ session, event.InSession) :
    ∃ n, session.foldl (next params initial) (running m) = running n ∧ m.Session n := by
  induction session generalizing m with
  | nil => exact ⟨m, rfl, .refl⟩
  | cons event rest ih =>
    obtain ⟨m', hstep, hone⟩ :=
      exists_next_session initial hsound (hsession event List.mem_cons_self)
    have hsound' : (running m').Sound params := hstep ▸ hsound.next event
    obtain ⟨n, hrest, hmore⟩ := ih hsound' fun e he => hsession e (List.mem_cons_of_mem _ he)
    exact ⟨n, by rw [List.foldl_cons, hstep, hrest], hone.trans hmore⟩

theorem exists_run_append (hlife : run params initial events = running m)
    {session : List LifeEvent} (hsession : ∀ event ∈ session, event.InSession) :
    ∃ n, run params initial (events ++ session) = running n ∧ m.Session n := by
  have hsound := sound params initial events
  rw [hlife] at hsound
  rw [run, List.foldl_append, ← run, hlife]
  exact exists_session initial hsound hsession

/-- **Induction over the events that led to a node**: it starts, and goes on by operations and under
other faults. -/
theorem events_induct {P : List LifeEvent → Node → Prop}
    (start : ∀ {events pool n s},
      Node.start params (run params initial events).store pool initial = (.ok n, s) →
      P (events ++ [.restart pool]) n)
    (perform : ∀ {events n} (operation : Operation), run params initial events = running n →
      P events n → P (events ++ [.operate operation]) (n.perform operation))
    (setFaults : ∀ {events n} (faults : Faults), run params initial events = running n →
      P events n → P (events ++ [.setFaults faults]) { n with store := { n.store with faults } })
    (hlife : run params initial events = running n) : P events n := by
  -- by the last event; a crash leaves no node
  induction events using List.reverseRecOn generalizing n with
  | nil => cases hlife
  | append_singleton events event ih =>
    rw [run_append] at hlife
    cases event with
    | restart pool =>
      simp only [Lifetime.next] at hlife
      split at hlife
      · rename_i hstart
        cases hlife
        exact start hstart
      · cases hlife
    | crash lost => cases hlife
    | operate operation =>
      cases hl : run params initial events with
      | stopped s =>
        rw [hl] at hlife
        cases hlife
      | running m =>
        rw [hl] at hlife
        cases hlife
        exact perform operation hl (ih hl)
    | setFaults faults =>
      cases hl : run params initial events with
      | stopped s =>
        rw [hl] at hlife
        cases hlife
      | running m =>
        rw [hl] at hlife
        cases hlife
        exact setFaults faults hl (ih hl)

/-- The events that led to a node end with a session, which starts with a node. -/
theorem exists_last_start (hlife : run params initial events = running n) :
    ∃ before pool session n₀ s, events = before ++ .restart pool :: session ∧
      (∀ event ∈ session, event.InSession) ∧
      Node.start params (run params initial before).store pool initial = (.ok n₀, s) ∧
      n₀.Session n := by
  have hsound := sound params initial
  refine events_induct (P := fun events n => ∃ before pool session n₀ s,
      events = before ++ .restart pool :: session ∧ (∀ event ∈ session, event.InSession) ∧
      Node.start params (run params initial before).store pool initial = (.ok n₀, s) ∧
      n₀.Session n) (fun {events pool n s} hstart => ?_) (fun {_ m} operation hm ih => ?_)
    (fun {_ m} faults hm ih => ?_) hlife
  · exact ⟨events, pool, [], n, s, rfl, fun event hevent => absurd hevent List.not_mem_nil,
      hstart, .refl⟩
  · obtain ⟨before, pool, session, n₀, s, rfl, hsession, hstart, hmoves⟩ := ih
    refine ⟨before, pool, session ++ [.operate operation], n₀, s, by simp, ?_, hstart,
      hmoves.trans (Node.Session.of_run
        (Node.admits_heavy.perform ((hsound _).node hm).1.wellFormed _))⟩
    exact List.forall_mem_append.2 ⟨hsession, List.forall_mem_singleton.2 trivial⟩
  · obtain ⟨before, pool, session, n₀, s, rfl, hsession, hstart, hmoves⟩ := ih
    refine ⟨before, pool, session ++ [.setFaults faults], n₀, s, by simp, ?_, hstart,
      hmoves.tail (.setFaults m faults)⟩
    exact List.forall_mem_append.2 ⟨hsession, List.forall_mem_singleton.2 trivial⟩

/-- What holds of every node that starts, and is kept by every move of a sound node, holds of all
nodes of a lifetime. -/
theorem node_induct {I : Node → Prop}
    (start : ∀ {s s' pool n}, s.Journaled → s.Weighed (.ofRule params.consensus.sealRule) →
      Node.start params s pool initial = (.ok n, s') → I n)
    (move : ∀ {m n : Node}, m.Sound → I m → Node.Move m n → I n)
    (hlife : run params initial events = running n) : I n := by
  obtain ⟨before, pool, session, m, s, -, -, hstart, hmoves⟩ := exists_last_start hlife
  have hbefore := sound params initial before
  obtain ⟨hm, -, -⟩ := Node.sound_of_start hbefore.journaled hbefore.weighed hstart
  exact (hmoves.induct move hm (start hbefore.journaled hbefore.weighed hstart)).2

theorem faults_of_run (params : Params) (initial : State) {F : Faults → Prop} (none : F {})
    (hfaults : ∀ faults, .setFaults faults ∈ events → F faults) :
    F (run params initial events).store.faults := by
  -- only an event that sets faults changes them
  induction events using List.reverseRecOn with
  | nil => exact none
  | append_singleton events event ih =>
    have hbefore := ih fun faults hmem => hfaults faults (List.mem_append_left _ hmem)
    have hsound := sound params initial events
    rw [run_append]
    generalize run params initial events = l at hsound hbefore
    cases event with
    | operate operation =>
      cases l with
      | stopped s => exact hbefore
      | running m =>
        have hrun := Node.admits_heavy.perform (hsound.node rfl).1.wellFormed operation
        show F (m.perform operation).store.faults
        rw [hrun.faults_eq]
        exact hbefore
    | setFaults faults =>
      have hnew := hfaults faults (List.mem_append_right _ (List.mem_singleton.2 rfl))
      cases l <;> exact hnew
    | restart pool =>
      have hboot := Node.boot_start params l.store pool initial
      simp only [Lifetime.next]
      rcases hres : Node.start params l.store pool initial with ⟨e | m, s⟩ <;> rw [hres] at hboot
      · show F s.faults
        rw [hboot.faults_eq]
        exact hbefore
      · obtain ⟨-, -, hstore⟩ := Node.sound_of_start hsound.journaled hsound.weighed hres
        show F m.store.faults
        rw [hstore, hboot.faults_eq]
        exact hbefore
    | crash lost => exact hbefore

/-- What holds of every node that starts, and is kept by all operations under faults of some kind,
holds of all nodes of a lifetime whose faults are of that kind. -/
theorem node_induct_of_faults {F : Faults → Prop} {I : Node → Prop} (none : F {})
    (start : ∀ {s s' pool n}, s.Journaled → s.Weighed (.ofRule params.consensus.sealRule) →
      Node.start params s pool initial = (.ok n, s') → I n)
    (perform : ∀ {m : Node} (operation : Operation), m.Sound → F m.store.faults → I m →
      I (m.perform operation))
    (setFaults : ∀ {m : Node} (faults : Faults), I m →
      I { m with store := { m.store with faults } })
    (hfaults : ∀ faults, .setFaults faults ∈ events → F faults)
    (hlife : run params initial events = running n) : I n := by
  have hsound := sound params initial
  have hbefore : ∀ {events : List LifeEvent} {event},
      (∀ faults, .setFaults faults ∈ events ++ [event] → F faults) →
      ∀ faults, .setFaults faults ∈ events → F faults := fun h faults hmem =>
    h faults (List.mem_append_left _ hmem)
  refine events_induct (P := fun events n =>
    (∀ faults, .setFaults faults ∈ events → F faults) → I n)
    (fun hstart _ => start (hsound _).journaled (hsound _).weighed hstart)
    (fun operation hm ih hkind => ?_)
    (fun faults hm ih hkind => setFaults faults (ih (hbefore hkind))) hlife hfaults
  have hnow := faults_of_run params initial none (hbefore hkind)
  rw [hm] at hnow
  exact perform operation ((hsound _).node hm).1 hnow (ih (hbefore hkind))

end Lifetime

end LedgerChain
