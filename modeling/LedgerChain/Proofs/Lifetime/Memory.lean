import LedgerChain.Proofs.Crypto.Transparent
import LedgerChain.Proofs.Lifetime.Archive
import LedgerChain.Proofs.Node.Recall

/-!
# Memories of different sizes

**The memory of invalid blocks only recalls what a node would find out anyway**
(`Lifetime.memory_only_recalls`).  Two lifetimes that go through the same events with memories of
different sizes stay the same in all but these memories, and give the same answers, except that one
may say that a block is known to be invalid where the other one turns it down after a look.

Hashes are assumed to tell apart the blocks that come up in a lifetime (`Lifetime.hashed`), and
stores to be readable; writes may fail at any time.
-/

namespace LedgerChain

/-- The parameters with another number of invalid blocks to remember. -/
def Params.remembering (params : Params) (size : Nat) : Params :=
  { params with run := { params.run with invalidCacheSize := size } }

/-! ### Answers -/

/-- The answer to an operation. -/
inductive OperationAnswer where
  | submitted (taken : Bool)
  | replaced
  | imported (answer : ImportAnswer)
  | authored (report : Node.AuthorReport)
  | shutDown (answer : Except ChainError Unit)

/-- Answers to the same operation, where those to imports are related as given. -/
inductive OperationAnswer.Rel (ρ : ImportAnswer → ImportAnswer → Prop) :
    OperationAnswer → OperationAnswer → Prop
  | submitted (taken : Bool) : Rel ρ (.submitted taken) (.submitted taken)
  | replaced : Rel ρ .replaced .replaced
  | imported {answer answer' : ImportAnswer} (h : ρ answer answer') :
    Rel ρ (.imported answer) (.imported answer')
  | authored {report report' : Node.AuthorReport} (h : report.Rel ρ report') :
    Rel ρ (.authored report) (.authored report')
  | shutDown (answer : Except ChainError Unit) : Rel ρ (.shutDown answer) (.shutDown answer)

theorem OperationAnswer.Rel.meet {ρ σ : ImportAnswer → ImportAnswer → Prop}
    (hmeet : ∀ a a' c : ImportAnswer, ρ a c → ρ a' c → σ a a') {x x' y : OperationAnswer}
    (h : x.Rel ρ y) (h' : x'.Rel ρ y) : x.Rel σ x' := by
  cases h with
  | submitted taken =>
    cases h'
    exact .submitted taken
  | replaced =>
    cases h'
    exact .replaced
  | imported hone =>
    cases h' with
    | imported hone' => exact .imported (hmeet _ _ _ hone hone')
  | authored hone =>
    cases h' with
    | authored hone' => exact .authored (hone.meet hmeet hone')
  | shutDown answer =>
    cases h'
    exact .shutDown answer

/-- One of the answers covers the other. -/
def ImportAnswer.Agree (answer answer' : ImportAnswer) : Prop :=
  answer.Covers answer' ∨ answer'.Covers answer

theorem ImportAnswer.Covers.agree {answer answer' other : ImportAnswer} (h : answer.Covers other)
    (h' : answer'.Covers other) : answer.Agree answer' := by
  cases h with
  | same => exact Or.inr h'
  | rejected cause =>
    cases h' with
    | same => exact Or.inl (.rejected cause)
    | rejected => exact Or.inl (.same _)
  | stale =>
    cases h' with
    | same => exact Or.inl .stale
    | stale => exact Or.inl (.same _)

/-! ### The blocks of a lifetime -/

/-- The blocks that an operation brings in. -/
def Operation.blocks : Operation → List Block
  | .importBlock block => [block]
  | .importEncoded input =>
    match Block.decode input with
    | .ok block => [block]
    | .error _ => []
  | .author config timelines =>
    (List.range config.maxAttempts).flatMap fun attempt => (timelines attempt).blocks
  | .submitExtrinsic _ | .replacePool _ | .shutdown => []

/-- The blocks that an event brings in. -/
def LifeEvent.blocks : LifeEvent → List Block
  | .operate operation => operation.blocks
  | .setFaults _ | .restart _ | .crash _ => []

variable [Crypto]

/-- The answer of a node to an operation. -/
def Node.answer (n : Node) : Operation → OperationAnswer
  | .submitExtrinsic x => .submitted (n.submitExtrinsic x).1
  | .replacePool _ => .replaced
  | .importBlock b => .imported (n.importBlock b).1
  | .importEncoded input => .imported (n.importEncoded input).1
  | .author config timelines => .authored (n.author config timelines).1
  | .shutdown => .shutDown n.shutdown.1

namespace Lifetime

/-- The blocks that came in, and those that were written at some moment. -/
def hashed (params : Params) (initial : State) (events : List LifeEvent) : List Block :=
  events.flatMap LifeEvent.blocks ++ events.inits.flatMap fun earlier =>
    Store.writtenBlocks (run params initial earlier).store.journal

end Lifetime

namespace Node

variable {R : ChainTip → ChainTip → Prop} {params : Params} {genesis : ChainTip}
  {bs : List Block} {n : Node}

/-- **Every operation goes the same way with a memory and without one.** -/
theorem Mindful.mirrors_perform (hR : Linking params.consensus R)
    (hclear : Block.Unmistakable bs) (hn : n.Kept R params genesis) (hm : n.Mindful bs)
    {operation : Operation} (hids : Store.DistinctIds (n.perform operation).store.journal)
    (hblocks : operation.blocks ⊆ bs) :
    Mirrors bs (OperationAnswer.Rel ImportAnswer.Covers)
      (n.answer operation, n.perform operation)
      (n.forgetful.answer operation, n.forgetful.perform operation) := by
  cases operation with
  | submitExtrinsic x =>
    have hsame : n.SameMemory (n.submitExtrinsic x).2 := by
      rw [submitExtrinsic]
      split <;> exact ⟨rfl, rfl⟩
    simp only [answer, perform, submitExtrinsic_forgetful]
    exact ⟨.submitted _, rfl, hm.aside (sameChain_submitExtrinsic n x) hsame⟩
  | replacePool pool =>
    exact ⟨.replaced, rfl, hm.aside ⟨rfl, rfl, rfl, rfl, rfl, rfl⟩ ⟨rfl, rfl⟩⟩
  | importBlock b =>
    obtain ⟨hcovers, hsame, hmind⟩ :=
      hm.mirrors_importBlock hR hclear hn hids (List.cons_subset.1 hblocks).1
    exact ⟨.imported hcovers, hsame, hmind⟩
  | importEncoded input =>
    simp only [perform, answer, importEncoded, Operation.blocks] at hids hblocks ⊢
    cases hdecode : Block.decode input with
    | error e => exact ⟨.imported (.same _), rfl, hm⟩
    | ok b =>
      rw [hdecode] at hids hblocks
      obtain ⟨hcovers, hsame, hmind⟩ :=
        hm.mirrors_importBlock hR hclear hn hids (List.cons_subset.1 hblocks).1
      exact ⟨.imported hcovers, hsame, hmind⟩
  | author config timelines =>
    have hattempts : ∀ k < config.maxAttempts, (timelines k).blocks ⊆ bs := fun k hk b hb =>
      hblocks (List.mem_flatMap.2 ⟨k, List.mem_range.2 hk, hb⟩)
    obtain ⟨hreport, hsame, hmind⟩ := hm.mirrors_author hR hclear hn hids hattempts
    exact ⟨.authored hreport, hsame, hmind⟩
  | shutdown =>
    have hstep : Run (fun _ _ => True) n n.shutdown.2 := .single (.shutdown n)
    simp only [answer, perform, shutdown_forgetful]
    exact ⟨.shutDown _, rfl, hm.of_run hstep (sameMemory_shutdown n)⟩

theorem start_remembering (params : Params) (size : Nat) (store : Store) (pool : Mempool)
    (initial : State) :
    ((start (params.remembering size) store pool initial).1.map forgetful =
      (start params store pool initial).1.map forgetful) ∧
    (start (params.remembering size) store pool initial).2 =
      (start params store pool initial).2 := by
  have hload : loadRoot (params.remembering size) initial store = loadRoot params initial store :=
    rfl
  rw [start, start, hload]
  rcases loadRoot params initial store with ⟨e | root, s⟩
  · exact ⟨rfl, rfl⟩
  · simp only [Params.remembering]
    cases restoreTree (.ofRule params.consensus.sealRule) s root with
    | error e => exact ⟨rfl, rfl⟩
    | ok t =>
      simp only
      cases repairPointer s (ForkChoice.ofTree params.run.finalityDepth t).best <;> exact ⟨rfl, rfl⟩

theorem mindful_of_start {store s : Store} {pool : Mempool} {initial : State}
    (hread : store.faults.Readable) (h : start params store pool initial = (.ok n, s)) :
    n.Mindful bs := by
  have hboot := boot_start params store pool initial
  rw [h] at hboot
  obtain ⟨root, s₁, t, -, -, -, rfl⟩ := start_ok_cases h
  refine ⟨hboot.faults_eq ▸ hread, fun orphans horphans => ?_, List.forall_mem_nil _⟩
  rw [ofForkChoice] at horphans
  split at horphans
  · cases horphans
    exact OrphanPool.within_new _ bs
  · cases horphans

end Node

namespace Lifetime

variable {params : Params} {initial : State} {bs : List Block} {l l' : Lifetime} {n n' : Node}
  {events : List LifeEvent}

/-- The lifetime without any memory of invalid blocks. -/
def forgetful : Lifetime → Lifetime
  | running n => running n.forgetful
  | stopped s => stopped s

omit [Crypto] in
theorem store_forgetful (l : Lifetime) : l.forgetful.store = l.store := by
  cases l <;> rfl

/-- The store can be read, and the node minds its memory. -/
structure Mindful (bs : List Block) (l : Lifetime) : Prop where
  readable : l.store.faults.Readable
  node : ∀ {n}, l = running n → n.Mindful bs

theorem Mindful.running (h : n.Mindful bs) : (running n).Mindful bs where
  readable := h.readable
  node heq := by
    cases heq
    exact h

theorem Mindful.stopped {s : Store} (h : s.faults.Readable) : (stopped s).Mindful bs where
  readable := h
  node heq := by cases heq

/-- What an event must be like so that it does the same with a memory and without one. -/
structure Clear (bs : List Block) (params : Params) (initial : State) (l : Lifetime)
    (event : LifeEvent) : Prop where
  blocks : event.blocks ⊆ bs
  distinct : Store.DistinctIds (l.next params initial event).store.journal
  readable : ∀ faults, event = .setFaults faults → faults.Readable

theorem Mindful.next (hclear : Block.Unmistakable bs) (h : l.Mindful bs)
    (hkept : l.Kept (Follows (.ofRule params.consensus.sealRule)) params initial)
    {event : LifeEvent} (hevent : Clear bs params initial l event) :
    (l.next params initial event).Mindful bs ∧
      (l.forgetful.next params initial event).forgetful =
        (l.next params initial event).forgetful := by
  obtain ⟨hblocks, hids, hread⟩ := hevent
  cases event with
  | operate operation =>
    cases l with
    | stopped s => exact ⟨h, rfl⟩
    | running n =>
      obtain ⟨-, hsame, hmind⟩ :=
        (h.node rfl).mirrors_perform (linking_follows _) hclear (hkept.node rfl) hids hblocks
      have hperform : n.forgetful.perform operation = (n.perform operation).forgetful := hsame
      refine ⟨.running hmind, ?_⟩
      simp only [Lifetime.next, operate, forgetful, hperform]
      rfl
  | setFaults faults =>
    cases l with
    | stopped s => exact ⟨.stopped (hread faults rfl), rfl⟩
    | running n =>
      have hn := h.node rfl
      exact ⟨.running ⟨hread faults rfl, hn.orphans, hn.condemned⟩, rfl⟩
  | restart pool =>
    refine ⟨?_, by simp only [Lifetime.next, store_forgetful]⟩
    have hboot := Node.boot_start params l.store pool initial
    simp only [Lifetime.next]
    rcases hres : Node.start params l.store pool initial with ⟨e | n, s⟩ <;> rw [hres] at hboot
    · exact .stopped (hboot.faults_eq ▸ h.readable)
    · exact .running (Node.mindful_of_start h.readable hres)
  | crash lost => exact ⟨.stopped h.readable, by simp only [Lifetime.next, store_forgetful]⟩

theorem next_remembering (size : Nat) (l : Lifetime) (event : LifeEvent) :
    (l.next (params.remembering size) initial event).forgetful =
      (l.next params initial event).forgetful := by
  cases event with
  | operate operation => rfl
  | setFaults faults => rfl
  | crash lost => rfl
  | restart pool =>
    obtain ⟨hnode, hstore⟩ := Node.start_remembering params size l.store pool initial
    simp only [Lifetime.next]
    rcases hres : Node.start params l.store pool initial with ⟨e | n, s⟩ <;>
      rcases hres' : Node.start (params.remembering size) l.store pool initial with
        ⟨e' | n', s'⟩ <;>
      rw [hres, hres'] at hnode hstore <;> cases hstore
    · rfl
    · cases hnode
    · cases hnode
    · exact congrArg Lifetime.running (Except.ok.inj hnode)

theorem hashed_append (params : Params) (initial : State) (events : List LifeEvent)
    (event : LifeEvent) :
    hashed params initial events ⊆ hashed params initial (events ++ [event]) := by
  intro b hb
  rw [hashed, List.mem_append, List.mem_flatMap, List.mem_flatMap] at hb ⊢
  rcases hb with ⟨e, he, hb⟩ | ⟨earlier, hearlier, hb⟩
  · exact Or.inl ⟨e, List.mem_append_left _ he, hb⟩
  · refine Or.inr ⟨earlier, ?_, hb⟩
    rw [List.mem_inits] at hearlier ⊢
    exact hearlier.trans (List.prefix_append _ _)

/-- Where hashes tell the blocks of a lifetime apart, its last event is clear. -/
theorem clear_of_hashed (hclear : Block.Unmistakable bs) {event : LifeEvent}
    (hbs : hashed params initial (events ++ [event]) ⊆ bs)
    (hread : ∀ faults, event = .setFaults faults → faults.Readable) :
    Clear bs params initial (run params initial events) event where
  blocks b hb := hbs (List.mem_append_left _ (List.mem_flatMap.2 ⟨event, by simp, hb⟩))
  distinct := by
    rw [← run_append]
    exact hclear.distinctIds fun b hb => hbs (List.mem_append_right _
      (List.mem_flatMap.2 ⟨_, (List.mem_inits _ _).2 (List.prefix_refl _), hb⟩))
  readable := hread

/-- **A lifetime goes the same way whatever the size of the memory**, by induction over its
events. -/
theorem forgetful_run (size : Nat) (hclear : Block.Unmistakable bs)
    (hbs : hashed params initial events ⊆ bs)
    (hbs' : hashed (params.remembering size) initial events ⊆ bs)
    (hread : ∀ faults, .setFaults faults ∈ events → faults.Readable) :
    (run params initial events).Mindful bs ∧
      (run (params.remembering size) initial events).Mindful bs ∧
      (run (params.remembering size) initial events).forgetful =
        (run params initial events).forgetful := by
  induction events using List.reverseRecOn with
  | nil => exact ⟨.stopped ⟨rfl, rfl⟩, .stopped ⟨rfl, rfl⟩, rfl⟩
  | append_singleton events event ih =>
    obtain ⟨hl, hl', hsame⟩ := ih (List.Subset.trans (hashed_append _ _ _ _) hbs)
      (List.Subset.trans (hashed_append _ _ _ _) hbs') fun faults hmem =>
        hread faults (List.mem_append_left _ hmem)
    have hlast : ∀ faults, event = .setFaults faults → faults.Readable := by
      rintro faults rfl
      exact hread faults (by simp)
    obtain ⟨hnext, hforget⟩ := hl.next hclear (kept (linking_follows _) initial events)
      (clear_of_hashed hclear hbs hlast)
    obtain ⟨hnext', hforget'⟩ := hl'.next hclear (kept (linking_follows _) initial events)
      (clear_of_hashed hclear hbs' hlast)
    rw [run_append, run_append]
    refine ⟨hnext, hnext', ?_⟩
    rw [← hforget', hsame, next_remembering, hforget]

/-- **The memory of invalid blocks only recalls.**

Take a lifetime and the one with the same events in which another number of invalid blocks is
remembered, and an operation that follows.  Hashes are to tell apart all blocks that come up in the
two, and the stores are to be readable; writes may fail.

* The two lifetimes are the same but for the memories, so far and after the operation: they have the
  same trees, stores, orphans, pools and statuses.
* They answer the same to the operation, and to whatever came in while it went on; only where one
  says that a block is known to be invalid, the other one may reject it for another reason or find
  it stale.
* Without a memory the node would give these answers, too, apart from the blocks that it is said to
  know as invalid, which it would turn down.  In particular, a block that it would accept is
  accepted, with the same outcome. -/
theorem memory_only_recalls (size : Nat) (operation : Operation)
    (hclear : Block.Unmistakable (hashed params initial (events ++ [.operate operation]) ++
      hashed (params.remembering size) initial (events ++ [.operate operation])))
    (hread : ∀ faults, .setFaults faults ∈ events → faults.Readable) :
    (run (params.remembering size) initial events).forgetful =
        (run params initial events).forgetful ∧
      (run (params.remembering size) initial (events ++ [.operate operation])).forgetful =
        (run params initial (events ++ [.operate operation])).forgetful ∧
      ∀ n n', run params initial events = running n →
        run (params.remembering size) initial events = running n' →
        (n.answer operation).Rel ImportAnswer.Agree (n'.answer operation) ∧
        (n.answer operation).Rel ImportAnswer.Covers (n.forgetful.answer operation) ∧
        ∀ b outcome, operation = .importBlock b →
          (n.forgetful.importBlock b).1 = .ok (.accepted outcome) →
          (n.importBlock b).1 = .ok (.accepted outcome) := by
  set bs := hashed params initial (events ++ [.operate operation]) ++
    hashed (params.remembering size) initial (events ++ [.operate operation])
  have hbs : hashed params initial (events ++ [.operate operation]) ⊆ bs :=
    List.subset_append_left _ _
  have hbs' : hashed (params.remembering size) initial (events ++ [.operate operation]) ⊆ bs :=
    List.subset_append_right _ _
  have hnone : ∀ faults, LifeEvent.operate operation = .setFaults faults → faults.Readable :=
    fun faults heq => by cases heq
  obtain ⟨hl, hl', hsame⟩ := forgetful_run size hclear
    (List.Subset.trans (hashed_append _ _ _ _) hbs)
    (List.Subset.trans (hashed_append _ _ _ _) hbs') hread
  obtain ⟨-, -, hafter⟩ := forgetful_run size hclear hbs hbs' fun faults hmem => by
    rcases List.mem_append.1 hmem with hmem | hmem
    · exact hread faults hmem
    · exact hnone faults (List.mem_singleton.1 hmem).symm
  have hevent := clear_of_hashed hclear hbs hnone
  have hevent' := clear_of_hashed hclear hbs' hnone
  refine ⟨hsame, hafter, fun n n' hn hn' => ?_⟩
  rw [hn] at hl hsame hevent
  rw [hn'] at hl' hsame hevent'
  -- both are compared with the node without a memory, which is the same for the two
  have hmirrors := (hl.node rfl).mirrors_perform (linking_follows _) hclear
    ((kept (linking_follows _) initial events).node hn) hevent.distinct hevent.blocks
  have hmirrors' := (hl'.node rfl).mirrors_perform (linking_follows _) hclear
    ((kept (linking_follows _) initial events).node hn') hevent'.distinct hevent'.blocks
  have hnode : n'.forgetful = n.forgetful := Lifetime.running.inj hsame
  have hcovers := hmirrors.answer
  have hcovers' := hmirrors'.answer
  rw [hnode] at hcovers'
  have hagree : (n.answer operation).Rel ImportAnswer.Agree (n'.answer operation) :=
    hcovers.meet (fun _ _ _ h h' => h.agree h') hcovers'
  refine ⟨hagree, hcovers, fun b outcome hop haccepted => ?_⟩
  subst hop
  simp only [Node.answer, haccepted] at hcovers
  cases hcovers with
  | imported hone =>
    generalize (n.importBlock b).1 = answer at hone
    cases hone
    rfl

/-! ### A memory that is too small -/

/-- A block on genesis with a seal of the wrong kind. -/
def missealed (proof : Bytes) (xs : List Extrinsic) : Block :=
  ⟨⟨{ parent := (Genesis.tip easyParams {}).id, height := 1, stateDigest := .zero 32,
      extrinsicsDigest := extrinsicsDigest [] }, ⟨.authority, proof⟩⟩, xs⟩

/-- A node that cannot write pointers is handed two blocks with bad seals. -/
def missealedEvents : List LifeEvent :=
  [startEvent, .setFaults { pointerWrites := true }, .operate (.importBlock (missealed [0] [])),
    .operate (.importBlock (missealed [1] []))]

/-- The first of them, with another body. -/
def missealedAgain : Operation := .importBlock (missealed [0] [⟨[7], 0⟩])

omit [Crypto] in
/-- The first header comes back with another body.  A memory for two blocks recalls it, and one
for a single block does not. -/
theorem memory_only_recalls_second_body :
    letI := Crypto.transparent
    ∃ n n', run (easyParams.remembering 2) {} missealedEvents = running n ∧
      run (easyParams.remembering 1) {} missealedEvents = running n' ∧
      n'.forgetful = n.forgetful ∧
      (n.importBlock (missealed [0] [⟨[7], 0⟩])).1 = .ok (.rejected .knownInvalid) ∧
      (n'.importBlock (missealed [0] [⟨[7], 0⟩])).1 =
        .ok (.rejected (.consensus (.wrongEngine .authority .work))) ∧
      (n.answer missealedAgain).Rel ImportAnswer.Agree (n'.answer missealedAgain) := by
  let _ := Crypto.transparent
  have hclear : Block.Unmistakable
      (hashed (easyParams.remembering 2) {} (missealedEvents ++ [.operate missealedAgain]) ++
        hashed (easyParams.remembering 1) {} (missealedEvents ++ [.operate missealedAgain])) := by
    decide +kernel
  have hread : ∀ faults, .setFaults faults ∈ missealedEvents → faults.Readable := by
    intro faults hmem
    simp only [missealedEvents, startEvent, List.mem_cons, LifeEvent.setFaults.injEq, reduceCtorEq,
      List.not_mem_nil, or_false, false_or] at hmem
    rw [hmem]
    exact ⟨rfl, rfl⟩
  have hnode : ((run (easyParams.remembering 2) {} missealedEvents).node?.map fun n =>
      (n.importBlock (missealed [0] [⟨[7], 0⟩])).1) = some (.ok (.rejected .knownInvalid)) := by
    decide +kernel
  have hnode' : ((run (easyParams.remembering 1) {} missealedEvents).node?.map fun n =>
      (n.importBlock (missealed [0] [⟨[7], 0⟩])).1) =
        some (.ok (.rejected (.consensus (.wrongEngine .authority .work)))) := by
    decide +kernel
  obtain ⟨n, hn, hanswer⟩ := Option.map_eq_some_iff.1 hnode
  obtain ⟨n', hn', hanswer'⟩ := Option.map_eq_some_iff.1 hnode'
  rw [node?_eq_some_iff] at hn hn'
  obtain ⟨hsame, -, hall⟩ := memory_only_recalls 1 missealedAgain hclear hread
  have hsame' : (running n').forgetful = (running n).forgetful := by
    rw [← hn, ← hn']
    exact hsame
  exact ⟨n, n', hn, hn', Lifetime.running.inj hsame', hanswer, hanswer', (hall n n' hn hn').1⟩

end Lifetime

end LedgerChain
