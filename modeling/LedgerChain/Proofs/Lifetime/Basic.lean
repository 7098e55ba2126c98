import LedgerChain.Proofs.Node.Start

/-!
# Lifetimes of a store

A lifetime begins with an empty store and no node.  A node is started on the store, does what it is
asked to do, and may be started anew at any time; in between the faults of the store come and go,
and a crash may undo the latest writes.  The parameters and the initial state of the chain stay the
same.

All nodes of a lifetime are sound (`Lifetime.sound`).
-/

namespace LedgerChain

/-- What a node can be asked to do. -/
inductive Operation where
  | submitExtrinsic (x : Extrinsic)
  /-- Any change to the extrinsics at hand. -/
  | replacePool (pool : Mempool)
  | importBlock (block : Block)
  | importEncoded (input : Bytes)
  | author (config : AuthoringConfig) (timelines : Nat → Timeline)
  | shutdown

/-- What can happen to a store and the node on it. -/
inductive LifeEvent where
  | operate (operation : Operation)
  | setFaults (faults : Faults)
  /-- A node is started, in place of the one that is running. -/
  | restart (pool : Mempool)
  /-- The node goes down, and the latest writes are lost. -/
  | crash (lost : Nat)

/-- A node at work, or the store that is left when there is none. -/
inductive Lifetime where
  | running (n : Node)
  | stopped (s : Store)

variable [Crypto]

namespace Node

/-- The node after an operation. -/
def perform (n : Node) : Operation → Node
  | .submitExtrinsic x => (n.submitExtrinsic x).2
  | .replacePool pool => { n with pool }
  | .importBlock b => (n.importBlock b).2
  | .importEncoded input => (n.importEncoded input).2
  | .author config timelines => (n.author config timelines).2
  | .shutdown => n.shutdown.2

theorem Admits.perform {I : Node → Prop} {K A : Node → ChainTip → Prop} {n : Node}
    (hA : Admits I K A) (h : I n) (operation : Operation) : Run A n (n.perform operation) := by
  cases operation with
  | submitExtrinsic x => exact .aside (sameChain_submitExtrinsic n x)
  | replacePool pool => exact .aside ⟨rfl, rfl, rfl, rfl, rfl, rfl⟩
  | importBlock b => exact hA.importBlock h b
  | importEncoded input =>
    show Run A n (n.importEncoded input).2
    rw [importEncoded]
    cases Block.decode input with
    | error e => exact .refl
    | ok b => exact hA.importBlock h b
  | author config timelines => exact hA.author h config timelines
  | shutdown => exact .single (.shutdown n)

end Node

namespace Lifetime

/-- The store. -/
def store : Lifetime → Store
  | running n => n.store
  | stopped s => s

/-- The node at work, if there is one. -/
def node? : Lifetime → Option Node
  | running n => some n
  | stopped _ => none

/-- A lifetime in which the node does what it is asked to, if there is one. -/
def operate (operation : Operation) : Lifetime → Lifetime
  | running n => running (n.perform operation)
  | stopped s => stopped s

/-- A lifetime in which the store has other faults. -/
def setFaults (faults : Faults) : Lifetime → Lifetime
  | running n => running { n with store := { n.store with faults } }
  | stopped s => stopped { s with faults }

/-- The effect of an event. -/
def next (params : Params) (initial : State) (l : Lifetime) : LifeEvent → Lifetime
  | .operate operation => l.operate operation
  | .setFaults faults => l.setFaults faults
  | .restart pool =>
    match Node.start params l.store pool initial with
    | (.ok n, _) => running n
    | (.error _, s) => stopped s
  | .crash lost =>
    stopped { Store.ofJournal (l.store.journal.drop lost) with faults := l.store.faults }

/-- The lifetime after some events. -/
def run (params : Params) (initial : State) (events : List LifeEvent) : Lifetime :=
  events.foldl (next params initial) (stopped {})

variable {params : Params} {initial : State} {l : Lifetime} {n : Node} {events : List LifeEvent}

omit [Crypto] in
theorem node?_eq_some_iff : l.node? = some n ↔ l = running n := by
  cases l <;> simp [node?]

theorem run_induct {P : Lifetime → Prop} (init : P (stopped {}))
    (step : ∀ {l} event, P l → P (l.next params initial event)) (events : List LifeEvent) :
    P (run params initial events) := by
  unfold run
  have hall : ∀ {l}, P l → P (events.foldl (next params initial) l) := by
    induction events with
    | nil => exact id
    | cons event rest ih => exact fun h => ih (step event h)
  exact hall init

theorem run_append (params : Params) (initial : State) (events : List LifeEvent)
    (event : LifeEvent) :
    run params initial (events ++ [event]) =
      (run params initial events).next params initial event := by
  rw [run, run, List.foldl_append, List.foldl_cons, List.foldl_nil]

/-! ### Soundness -/

/-- The store comes from its journal and knows the weights of its blocks, and the node is sound. -/
structure Sound (params : Params) (l : Lifetime) : Prop where
  journaled : l.store.Journaled
  weighed : l.store.Weighed (.ofRule params.consensus.sealRule)
  node : ∀ {n}, l = running n → n.Sound ∧ n.params = params

theorem Sound.stopped {s : Store} (hj : s.Journaled)
    (hw : s.Weighed (.ofRule params.consensus.sealRule)) : (stopped s).Sound params where
  journaled := hj
  weighed := hw
  node heq := by cases heq

theorem Sound.running (hn : n.Sound) (hparams : n.params = params) : (running n).Sound params where
  journaled := hn.journaled
  weighed := by
    have hw := hn.weighed
    rwa [Node.engine, hparams] at hw
  node heq := by
    cases heq
    exact ⟨hn, hparams⟩

/-- The weights of the stored blocks are known at every moment of the past of a sound store. -/
theorem Sound.weighed_ofJournal (h : l.Sound params) {w : List StoreWrite}
    (hw : w <:+ l.store.journal) :
    (Store.ofJournal w).Weighed (.ofRule params.consensus.sealRule) := by
  intro id sb hsb hheight
  refine h.weighed id sb ?_ hheight
  rw [h.journaled.blocks_eq]
  exact Store.find?_of_suffix hw hsb

theorem Sound.next (h : l.Sound params) (event : LifeEvent) :
    (l.next params initial event).Sound params := by
  cases event with
  | operate operation =>
    cases l with
    | stopped s => exact h
    | running n =>
      obtain ⟨hn, hparams⟩ := h.node rfl
      have hrun := Node.admits_sound.perform hn operation
      have hn' := Node.Run.sound hrun hn
      exact .running hn' ((Node.Run.params_eq hrun).trans hparams)
  | setFaults faults =>
    cases l with
    | stopped s => exact .stopped (h.journaled.withFaults faults) h.weighed
    | running n =>
      obtain ⟨hn, hparams⟩ := h.node rfl
      exact .running (hn.withFaults faults) hparams
  | restart pool =>
    have hboot := Node.boot_start params l.store pool initial
    simp only [Lifetime.next]
    rcases hres : Node.start params l.store pool initial with ⟨_ | n, s⟩ <;> rw [hres] at hboot
    · exact .stopped (hboot.later.journaled h.journaled) (hboot.weighed h.weighed)
    · obtain ⟨hn, -, -⟩ := Node.sound_of_start h.journaled h.weighed hres
      exact .running hn (Node.params_of_start hres)
  | crash lost =>
    exact .stopped (Store.journaled_ofJournal _ _) (h.weighed_ofJournal (List.drop_suffix _ _))

/-- **All nodes of a lifetime are sound.** -/
theorem sound (params : Params) (initial : State) (events : List LifeEvent) :
    (run params initial events).Sound params :=
  run_induct (.stopped rfl .empty) (fun event h => h.next event) events

/-! ### Parameters and events for small lifetimes -/

/-- Blocks are sealed by work of the least difficulty. -/
def easyParams : Params := { consensus := ⟨.work 1, 16, 1024⟩ }

/-- Blocks are sealed by a single authority. -/
def signedParams (authority : PublicKey) : Params :=
  { consensus := ⟨.authority [authority] true, 16, 1024⟩ }

/-- A node starts with an empty pool. -/
def startEvent : LifeEvent := .restart { config := {} }

/-- A node makes a block on its canonical tip, and nothing comes in meanwhile. -/
def authorEvent : LifeEvent := .operate (.author {} fun _ => {})

/-- A node makes a block whose pointer cannot be written. -/
def heldBackEvents : List LifeEvent :=
  [startEvent, .setFaults { pointerWrites := true }, authorEvent, .setFaults {}]

/-- A node makes a block that it signs. -/
def signEvent (secret : SecretKey) : LifeEvent :=
  .operate (.author { authoringKey := some secret } fun _ => {})

end Lifetime

end LedgerChain
