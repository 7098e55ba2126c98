import LedgerChain.Proofs.Node.Acts

/-!
# What becomes of orphans

A block that leaves the pool of orphans had to make room in a full pool, or was released and handed
in, or was released together with a block that failed in the store (`Handing.Settles`).  Whatever a
node does, all its orphans are accounted for in this way, and so are the blocks that become orphans
meanwhile (`Node.Acts.accounts`).

The last case is a loss: the block gets no verdict.  It cannot occur while all writes and reads
succeed, nor in an import that succeeds (`Handing.exists_ok`, `Node.Cascade.exists_ok`).
-/

namespace LedgerChain

variable [Crypto]

namespace Handing

variable {h : Handing} {c : Block}

/-- The block was released, and is handed in. -/
def Hands (h : Handing) (c : Block) : Prop := h.block = c ∧ c ∉ h.node.waiting

/-- The block was released, and another one that waited for the same parent is handed in and fails in
the store. -/
def Loses (h : Handing) (c : Block) : Prop :=
  h.block ≠ c ∧ h.block.parent = c.parent ∧ c ∉ h.node.waiting ∧
    ∃ e, h.answer = .error (.store e)

/-- The handing tells why the block waits no more. -/
def Settles (h : Handing) (c : Block) : Prop := h.Evicts c ∨ h.Hands c ∨ h.Loses c

theorem handled (h : Handing) : Node.Handled h.node h.block h.answer h.after :=
  Node.handled_importOne h.node h.block

/-- An orphan stays when a block is handed in, unless it has to make room. -/
theorem mem_waiting_or (hn : h.node.Orderly) (hc : c ∈ h.node.waiting) :
    c ∈ h.after.waiting ∨ h.Evicts c :=
  h.handled.mem_waiting_or hn hc

theorem exists_store_error (hn : h.node.Sound) {e : ChainError} (herror : h.answer = .error e) :
    ∃ e', h.answer = .error (.store e') := by
  obtain ⟨⟨e', rfl⟩, -⟩ := h.handled.of_error hn herror
  exact ⟨e', herror⟩

/-- **Nothing fails while the store can be written and read.** -/
theorem exists_ok (hn : h.node.Sound) (hharmless : h.node.store.faults.Harmless) :
    ∃ result, h.answer = .ok result := by
  obtain ⟨hblocks, hpointers, hreads⟩ := hharmless
  cases hanswer : h.answer with
  | ok result => exact ⟨result, rfl⟩
  | error e =>
    obtain ⟨-, ⟨hfault, -⟩ | ⟨hfault, -⟩ | hfault⟩ := h.handled.of_error hn hanswer
    · rw [hreads] at hfault
      cases hfault
    · rw [hblocks] at hfault
      cases hfault
    · rw [hpointers] at hfault
      cases hfault

end Handing

namespace Node

variable {I : Node → Prop} {K A : Node → ChainTip → Prop} {n n' m : Node} {b c : Block}
  {rest : List Block} {stack : List BlockId}
  {log log' : List Handing} {ending : Except ChainError Unit}

/-- A block still waits in the end, or one of the handings tells why not. -/
def Accounted (n' : Node) (log : List Handing) (c : Block) : Prop :=
  c ∈ n'.waiting ∨ ∃ h ∈ log, h.Settles c

/-- All orphans are accounted for: those from before, and those that there are after each of the
handings, by the handings that follow. -/
structure Accounts (n : Node) (log : List Handing) (n' : Node) : Prop where
  before : ∀ c ∈ n.waiting, Accounted n' log c
  during : ∀ {log₁ h log₂}, log = log₁ ++ h :: log₂ → ∀ c ∈ h.after.waiting, Accounted n' log₂ c

namespace Accounted

theorem append_left (h : Accounted n' log' c) : Accounted n' (log ++ log') c := by
  rcases h with hwaits | ⟨x, hx, hsettles⟩
  · exact Or.inl hwaits
  · exact Or.inr ⟨x, List.mem_append_right _ hx, hsettles⟩

theorem of_settles {h : Handing} (hmem : h ∈ log) (hsettles : h.Settles c) : Accounted n' log c :=
  Or.inr ⟨h, hmem, hsettles⟩

theorem trans (h : Accounted m log c) (h' : ∀ c ∈ m.waiting, Accounted n' log' c) :
    Accounted n' (log ++ log') c := by
  rcases h with hm | ⟨x, hx, hsettles⟩
  · exact (h' c hm).append_left
  · exact .of_settles (List.mem_append_left _ hx) hsettles

/-- If nothing fails, a block that waits no more had to make room, or was handed in. -/
theorem of_ok (h : Accounted n' log c) (hok : ∀ x ∈ log, ∃ result, x.answer = .ok result) :
    c ∈ n'.waiting ∨ ∃ x ∈ log, x.Evicts c ∨ x.Hands c := by
  rcases h with hwaits | ⟨x, hx, hsettles⟩
  · exact Or.inl hwaits
  refine Or.inr ⟨x, hx, ?_⟩
  rcases hsettles with hevicts | hhands | ⟨-, -, -, e, herror⟩
  · exact Or.inl hevicts
  · exact Or.inr hhands
  · obtain ⟨result, hresult⟩ := hok x hx
    rw [hresult] at herror
    cases herror

end Accounted

namespace Accounts

theorem of_waiting_eq (h : n'.waiting = n.waiting) : Accounts n [] n' where
  before c hc := Or.inl (h ▸ hc)
  during heq := by simp at heq

theorem single (h : Handing) (hn : h.node.Orderly) : Accounts h.node [h] h.after where
  before c hc := by
    rcases h.mem_waiting_or hn hc with hstays | hevicts
    · exact Or.inl hstays
    · exact .of_settles List.mem_cons_self (Or.inl hevicts)
  during {log₁ x log₂} heq c hc := by
    rcases List.cons_eq_append_iff.1 heq with ⟨rfl, hrest⟩ | ⟨_, rfl, hrest⟩
    · cases hrest
      exact Or.inl hc
    · simp at hrest

theorem trans (h : Accounts n log m) (h' : Accounts m log' n') : Accounts n (log ++ log') n' where
  before c hc := (h.before c hc).trans h'.before
  during {log₁ x log₂} heq c hc := by
    rcases List.append_eq_append_iff.1 heq with ⟨between, -, hlater⟩ | ⟨between, hearlier, hrest⟩
    · exact h'.during hlater c hc
    · rcases List.cons_eq_append_iff.1 hrest with ⟨rfl, hlater⟩ | ⟨between, rfl, rfl⟩
      · exact h'.during (hlater.trans (List.nil_append _).symm) c hc
      · exact (h.during hearlier c hc).trans h'.before

end Accounts

/-! ### Cascades -/

/-- The released blocks have distinct identifiers, and none of them waits. -/
structure Apart (n : Node) (rest : List Block) : Prop where
  nodup : (rest.map Block.id).Nodup
  disjoint : ∀ b ∈ rest, b.id ∉ n.waiting.map Block.id

theorem apart_nil (n : Node) : n.Apart [] :=
  ⟨List.nodup_nil, fun _ hb => by cases hb⟩

theorem Orderly.apart_takeOrphans (hn : n.Orderly) (parent : BlockId) :
    (n.takeOrphans parent).2.Apart (n.takeOrphans parent).1 := by
  obtain ⟨htaken, hleft, -, -⟩ := hn.takeOrphans parent
  rw [htaken]
  refine ⟨hn.nodup.sublist (List.filter_sublist.map _), fun b hb hid => ?_⟩
  rw [hleft] at hid
  obtain ⟨c, hc, hid⟩ := List.mem_map.1 hid
  obtain ⟨hb, hparent⟩ := List.mem_filter.1 hb
  obtain ⟨hc, hne⟩ := List.mem_filter.1 hc
  rw [List.inj_on_of_nodup_map hn.nodup hc hb hid] at hne
  exact of_decide_eq_true hne (of_decide_eq_true hparent)

theorem Apart.not_mem (h : n.Apart (b :: rest)) : b ∉ n.waiting := fun hb =>
  h.disjoint b List.mem_cons_self (List.mem_map_of_mem hb)

theorem Apart.importOne (h : n.Apart (b :: rest)) (hn : n.Orderly) :
    (n.importOne b).2.Apart rest := by
  obtain ⟨hnot, hnodup⟩ := List.nodup_cons.1 h.nodup
  refine ⟨hnodup, fun c hc hid => ?_⟩
  obtain ⟨d, hd, hsame⟩ := List.mem_map.1 hid
  rcases (handled_importOne n b).of_mem_waiting hn hd with hd | ⟨rfl, -⟩
  · exact h.disjoint c (List.mem_cons_of_mem _ hc) (List.mem_map.2 ⟨d, hd, hsame⟩)
  · rw [hsame] at hnot
    exact hnot (List.mem_map_of_mem hc)

namespace Cascade

theorem exists_ok (h : Cascade rest stack n log ending n') (hending : ending = .ok ()) :
    ∀ x ∈ log, ∃ result, x.answer = .ok result := by
  induction h with
  | done n => exact List.forall_mem_nil _
  | take _ ih => exact ih hending
  | @hand n n' n₁ b rest stack result log ending himport _ ih =>
    refine List.forall_mem_cons.2 ⟨⟨result, ?_⟩, ih hending⟩
    rw [Handing.answer, himport]
  | fail _ => cases hending

theorem runs_of_mem (hA : Admits I K A) (h : Cascade rest stack n log ending n') (hn : I n) :
    ∀ x ∈ log, Run A n x.node ∧ Run A x.node n' := by
  induction h with
  | done n => exact List.forall_mem_nil _
  | @take n n' parent stack log ending _ ih =>
    have htake : Run A n (n.takeOrphans parent).2 := .aside (sameChain_takeOrphans n parent)
    exact fun x hx => (ih (hA.run_inv htake hn) x hx).imp_left htake.trans
  | @hand n n' n₁ b rest stack result log ending himport hrest ih =>
    have hone := hA.run_of_importOne hn himport
    have h₁ := hA.run_inv hone hn
    exact List.forall_mem_cons.2 ⟨⟨.refl, hone.trans (hrest.run_of hA h₁)⟩,
      fun x hx => (ih h₁ x hx).imp_left hone.trans⟩
  | fail himport =>
    exact List.forall_mem_cons.2 ⟨⟨.refl, hA.run_of_importOne hn himport⟩, List.forall_mem_nil _⟩

/-- **All orphans are accounted for by a cascade**, and all released blocks that are still to be
handed in.  These wait for one parent. -/
theorem accounts (h : Cascade rest stack n log ending n') (hn : n.Orderly) (hsound : n.Sound)
    (hapart : n.Apart rest) (hparent : ∀ b ∈ rest, ∀ c ∈ rest, b.parent = c.parent) :
    Accounts n log n' ∧ ∀ c ∈ rest, Accounted n' log c := by
  -- what was taken out last has one parent, so one failure settles all of it
  induction h with
  | done n => exact ⟨.of_waiting_eq rfl, List.forall_mem_nil _⟩
  | @take n n' q stack log ending _ ih =>
    obtain ⟨htaken, hleft, hn₁, -⟩ := hn.takeOrphans q
    have hsound₁ := Step.sound (.aside (sameChain_takeOrphans n q)) hsound
    have hsame : ∀ c ∈ (n.takeOrphans q).1, c.parent = q := by
      intro c hc
      rw [htaken] at hc
      exact of_decide_eq_true (List.mem_filter.1 hc).2
    obtain ⟨hrest, hreleased⟩ := ih hn₁ hsound₁ (hn.apart_takeOrphans q)
      fun b hb c hc => (hsame b hb).trans (hsame c hc).symm
    refine ⟨⟨fun c hc => ?_, hrest.during⟩, List.forall_mem_nil _⟩
    by_cases hq : c.parent = q
    · refine hreleased c ?_
      rw [htaken]
      exact List.mem_filter.2 ⟨hc, decide_eq_true hq⟩
    · refine hrest.before c ?_
      rw [hleft]
      exact List.mem_filter.2 ⟨hc, decide_eq_true hq⟩
  | @hand n n' n₁ b rest stack result log ending himport _ ih =>
    have hone := Accounts.single ⟨n, b⟩ hn
    have hrun := admits_heavy.importOne hsound.wellFormed b
    have hapart₁ := hapart.importOne hn
    have hn₁ := hn.importOne b
    rw [himport] at hrun hapart₁ hn₁
    rw [Handing.after, himport] at hone
    obtain ⟨hmore, hothers⟩ := ih hn₁ (hrun.sound hsound) hapart₁
      fun c hc d hd => hparent c (List.mem_cons_of_mem _ hc) d (List.mem_cons_of_mem _ hd)
    refine ⟨hone.trans hmore, List.forall_mem_cons.2 ⟨?_, fun c hc => ?_⟩⟩
    · exact .of_settles List.mem_cons_self (Or.inr (Or.inl ⟨rfl, hapart.not_mem⟩))
    · obtain hstays | ⟨x, hx, hsettles⟩ := hothers c hc
      · exact Or.inl hstays
      · exact .of_settles (List.mem_cons_of_mem _ hx) hsettles
  | @fail n n' b rest stack e himport =>
    have hone := Accounts.single ⟨n, b⟩ hn
    have hanswer : Handing.answer ⟨n, b⟩ = .error e := by rw [Handing.answer, himport]
    rw [Handing.after, himport] at hone
    refine ⟨hone, List.forall_mem_cons.2 ⟨?_, fun c hc => ?_⟩⟩
    · exact .of_settles List.mem_cons_self (Or.inr (Or.inl ⟨rfl, hapart.not_mem⟩))
    · have hne : b ≠ c := by
        rintro rfl
        exact (List.nodup_cons.1 hapart.nodup).1 (List.mem_map_of_mem hc)
      have hsame := hparent b List.mem_cons_self c (List.mem_cons_of_mem _ hc)
      have hgone : c ∉ n.waiting := fun hin =>
        hapart.disjoint c (List.mem_cons_of_mem _ hc) (List.mem_map_of_mem hin)
      exact .of_settles List.mem_cons_self
        (Or.inr (Or.inr ⟨hne, hsame, hgone, Handing.exists_store_error hsound hanswer⟩))

theorem accounts_nil (h : Cascade [] stack n log ending n') (hn : n.Orderly) (hsound : n.Sound) :
    Accounts n log n' :=
  (h.accounts hn hsound (apart_nil n) fun _ hb => by cases hb).1

/-- An import accounts for all orphans.  The block itself may be one of them already. -/
theorem accounts_import (h : Cascade [b] [] n log ending n') (hn : n.Orderly) (hsound : n.Sound) :
    Accounts n log n' := by
  have hone := Accounts.single ⟨n, b⟩ hn
  cases h with
  | @hand _ _ n₁ _ _ _ result log _ himport hrest =>
    have hrun := admits_heavy.importOne hsound.wellFormed b
    have hn₁ := hn.importOne b
    rw [himport] at hrun hn₁
    rw [Handing.after, himport] at hone
    exact hone.trans (hrest.accounts_nil hn₁ (hrun.sound hsound))
  | fail himport =>
    rw [Handing.after, himport] at hone
    exact hone

end Cascade

/-! ### Acts -/

theorem Act.accounts (h : Act Heavy n log n') (hn : n.Orderly) (hsound : n.Sound) :
    Accounts n log n' := by
  cases h with
  | aside _ hmemory => exact .of_waiting_eq (waiting_of_orphans_eq hmemory.orphans)
  | shutdown => exact .of_waiting_eq (waiting_of_orphans_eq (sameMemory_shutdown n).orphans)
  | imported h => exact h.accounts_import hn hsound
  | @failed tip _ _ _ =>
    exact .of_waiting_eq (waiting_of_orphans_eq (sameMemory_offer n tip).orphans)
  | @made _ tip _ update _ _ hheavy _ _ h =>
    have hkeep := (sameMemory_made n tip update).orphans
    have hoffer := run_made hheavy update
    have hfirst : Accounts n [] ((n.offer tip).2.updatePool update) :=
      .of_waiting_eq (waiting_of_orphans_eq hkeep)
    exact hfirst.trans (h.accounts_nil (orderly_of_orphans_eq hkeep hn) (hoffer.sound hsound))

/-- **Whatever a node does, all its orphans are accounted for.** -/
theorem Acts.accounts (h : Acts Heavy n log n') (hn : n.Orderly) (hsound : n.Sound) :
    Accounts n log n' := by
  induction h with
  | refl n => exact .of_waiting_eq rfl
  | head hact _ ih =>
    have hm := (hact.run hsound.wellFormed).sound hsound
    exact (hact.accounts hn hsound).trans (ih (hact.orderly hn) hm)

theorem Act.runs_of_mem (hA : Admits I K A) (h : Act A n log n') (hn : I n) :
    ∀ x ∈ log, Run A n x.node ∧ Run A x.node n' := by
  cases h with
  | aside _ _ => exact List.forall_mem_nil _
  | shutdown => exact List.forall_mem_nil _
  | imported h => exact h.runs_of_mem hA hn
  | failed _ _ => exact List.forall_mem_nil _
  | @made _ tip _ update _ _ htip _ _ h =>
    have hoffer := run_made htip update
    exact fun x hx => (h.runs_of_mem hA (hA.run_inv hoffer hn) x hx).imp_left hoffer.trans

theorem Acts.runs_of_mem (hA : Admits I K A) (h : Acts A n log n') (hn : I n) :
    ∀ x ∈ log, Run A n x.node ∧ Run A x.node n' := by
  induction h with
  | refl n => exact List.forall_mem_nil _
  | head hact hrest ih =>
    have hone := hact.run_of hA hn
    have hm := hA.run_inv hone hn
    exact List.forall_mem_append.2
      ⟨fun x hx => (hact.runs_of_mem hA hn x hx).imp_right fun hx =>
        hx.trans (hrest.run_of hA hm), fun x hx => (ih hm x hx).imp_left hone.trans⟩

end Node

end LedgerChain
