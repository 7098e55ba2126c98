import LedgerChain.Proofs.Crypto.Transparent
import LedgerChain.Proofs.Execution.WellFormed

/-!
# Independent extrinsics

A call reads and writes a few keys only: the raw key that it names, or the keys of the balances of the
accounts that it names.  These are the **footprint** of the call (`Call.footprint`), and of an
extrinsic that carries it; an extrinsic whose payload is no call has none.

* Two states that agree on the footprint of an extrinsic refuse it with the same error, or have it
  write the same (`writes_congr`).
* An extrinsic that applies changes no entry outside its footprint (`find?_step`).

So extrinsics with disjoint footprints do not notice each other, and commute (`step_comm`).  A list of
them applies in any order or in none, and leads to the same state
(`independent_extrinsics_commute`).
-/

namespace LedgerChain

/-! ### Footprints -/

/-- The keys that a call reads and writes. -/
def Call.footprint (call : Call) : List Bytes := call.rawKeys ++ call.accounts.map balanceKey

/-- The keys that an extrinsic reads and writes. -/
def Extrinsic.footprint (x : Extrinsic) : List Bytes :=
  match x.call with
  | .error _ => []
  | .ok call => call.footprint

/-- Two extrinsics have no key in common. -/
def Extrinsic.Independent (x y : Extrinsic) : Prop := x.footprint.Disjoint y.footprint

/-- Two states have the same entries at some keys. -/
def State.AgreeOn (keys : List Bytes) (s s' : State) : Prop := ∀ k ∈ keys, s.find? k = s'.find? k

theorem Call.mem_footprint_of_names {call : Call} {k : Bytes} (h : call.Names k) :
    k ∈ call.footprint := by
  cases hreserved : isReservedKey k with
  | true =>
    obtain ⟨account, hmem, rfl⟩ := h.account hreserved
    exact List.mem_append_right _ (List.mem_map_of_mem hmem)
  | false => exact List.mem_append_left _ (h.raw hreserved)

theorem Extrinsic.Independent.symm {x y : Extrinsic} (h : x.Independent y) : y.Independent x :=
  List.Disjoint.symm h

/-! ### Batches -/

namespace WriteBatch

variable {s s' : State} {b c : WriteBatch} {k : Bytes}

theorem find?_apply_congr (h : s.find? k = s'.find? k) :
    (b.apply s).find? k = (b.apply s').find? k := by
  have hfold : ∀ (ws : List Write) {m m' : Entries}, m.find? k = m'.find? k →
      (ws.foldl Write.apply m).find? k = (ws.foldl Write.apply m').find? k := by
    intro ws
    induction ws with
    | nil => exact id
    | cons w ws ih =>
      intro m m' hm
      refine ih ?_
      rw [Write.find?_apply, Write.find?_apply, hm]
  exact hfold b.writes h

/-- **Batches that write to different keys commute.** -/
theorem apply_comm (h : ∀ w ∈ b.writes, ∀ v ∈ c.writes, w.key ≠ v.key) :
    c.apply (b.apply s) = b.apply (c.apply s) := by
  have hentries : (c.apply (b.apply s)).entries = (b.apply (c.apply s)).entries := by
    refine Entries.ext_find? fun k => ?_
    show (c.apply (b.apply s)).find? k = (b.apply (c.apply s)).find? k
    by_cases hb : ∀ w ∈ b.writes, w.key ≠ k
    · rw [find?_apply (s := c.apply s) hb]
      exact find?_apply_congr (find?_apply hb)
    · -- the key is one of the first batch, so the second one does not write to it
      obtain ⟨w, hw, rfl⟩ : ∃ w ∈ b.writes, w.key = k := by simpa using hb
      have hc : ∀ v ∈ c.writes, v.key ≠ w.key := fun v hv => Ne.symm (h w hw v hv)
      rw [find?_apply (s := b.apply s) hc]
      exact find?_apply_congr (find?_apply hc).symm
  show (⟨_, s.version⟩ : State) = ⟨_, s.version⟩
  exact congrArg (State.mk · s.version) hentries

end WriteBatch

namespace Execution

variable {s s' m : State} {x y : Extrinsic} {xs ys zs : List Extrinsic} {call : Call}
  {batch : WriteBatch} {account : Account} {k : Bytes}

/-! ### What an extrinsic depends on -/

theorem balance_congr (h : s.find? (balanceKey account) = s'.find? (balanceKey account)) :
    balance s account = balance s' account := by
  unfold balance
  rw [h]

/-- **A call depends on its footprint only**, in all its checks and in what it writes. -/
theorem callWrites_congr (h : s.AgreeOn call.footprint s') :
    callWrites s call = callWrites s' call := by
  have hbalance : ∀ account ∈ call.accounts, balance s account = balance s' account :=
    fun account hmem =>
      balance_congr (h _ (List.mem_append_right _ (List.mem_map_of_mem hmem)))
  cases call with
  | set key value => rfl
  | remove key =>
    have hmem : key ∈ (Call.remove key).footprint := by simp [Call.footprint, Call.rawKeys]
    have hkey : s.contains key = s'.contains key := congrArg Option.isSome (h key hmem)
    simp only [callWrites, hkey]
  | mint account amount => simp only [callWrites, hbalance account (by simp [Call.accounts])]
  | burn account amount => simp only [callWrites, hbalance account (by simp [Call.accounts])]
  | transfer source target amount =>
    simp only [callWrites, hbalance source (by simp [Call.accounts]),
      hbalance target (by simp [Call.accounts])]

/-- **An extrinsic depends on its footprint only.** -/
theorem writes_congr (h : s.AgreeOn x.footprint s') : writes s x = writes s' x := by
  unfold writes
  cases hcall : x.call with
  | error e => rfl
  | ok call =>
    refine callWrites_congr ?_
    simpa only [Extrinsic.footprint, hcall] using h

theorem key_mem_footprint (h : writes s x = .ok batch) :
    ∀ w ∈ batch.writes, w.key ∈ x.footprint := by
  intro w hw
  unfold writes at h
  cases hcall : x.call with
  | error e =>
    rw [hcall] at h
    cases h
  | ok call =>
    rw [hcall] at h
    have hnames := (writes_callWrites (callWrites_ok_cases h) w hw).2
    simpa only [Extrinsic.footprint, hcall] using Call.mem_footprint_of_names hnames

theorem step_eq_ok_iff :
    step s x = .ok s' ↔ ∃ batch, writes s x = .ok batch ∧ s' = batch.apply s := by
  unfold step
  cases writes s x with
  | error e => simp
  | ok batch => simp [eq_comm]

/-- **An extrinsic changes nothing outside its footprint.** -/
theorem find?_step (h : step s x = .ok s') (hk : k ∉ x.footprint) : s'.find? k = s.find? k := by
  obtain ⟨batch, hbatch, rfl⟩ := step_eq_ok_iff.1 h
  refine WriteBatch.find?_apply ?_
  rintro w hw rfl
  exact hk (key_mem_footprint hbatch w hw)

theorem writes_step (hxy : x.Independent y) (hx : step s x = .ok s') : writes s' y = writes s y :=
  writes_congr fun _ hk => find?_step hx fun hin => hxy hin hk

/-! ### Any order -/

/-- The state after an extrinsic, if it applies. -/
def step? (s : State) (x : Extrinsic) : Option State := (step s x).toOption

theorem step?_eq_map (s : State) (x : Extrinsic) :
    step? s x = (writes s x).toOption.map fun batch => batch.apply s := by
  unfold step? step
  cases writes s x <;> rfl

/-- **Independent extrinsics commute**, also in whether they apply. -/
theorem step_comm (hxy : x.Independent y) :
    (step? s x).bind (step? · y) = (step? s y).bind (step? · x) := by
  have hskip : ∀ {x y : Extrinsic}, x.Independent y → ∀ {batch}, writes s x = .ok batch →
      writes (batch.apply s) y = writes s y := by
    intro x y hxy batch hx
    exact writes_step hxy (step_eq_ok_iff.2 ⟨batch, hx, rfl⟩)
  simp only [step?_eq_map]
  cases hx : writes s x with
  | error e =>
    cases hy : writes s y with
    | error e' => rfl
    | ok c =>
      have hsame := hskip hxy.symm hy
      simp [Except.toOption, hsame, hx]
  | ok b =>
    have hsame := hskip hxy hx
    cases hy : writes s y with
    | error e => simp [Except.toOption, hsame, hy]
    | ok c =>
      have hsame' := hskip hxy.symm hy
      have hcomm : c.apply (b.apply s) = b.apply (c.apply s) :=
        WriteBatch.apply_comm fun w hw v hv heq =>
          hxy (key_mem_footprint hx w hw) (heq ▸ key_mem_footprint hy v hv)
      simp [Except.toOption, hsame, hsame', hx, hy, hcomm]

variable [Crypto]

/-- A list of extrinsics applies one after the other, wherever positions are counted from. -/
theorem toOption_run (s : State) (index : Nat) (xs : List Extrinsic) :
    (run s index xs).toOption = xs.foldlM step? s := by
  induction xs generalizing s index with
  | nil => rfl
  | cons x xs ih =>
    rw [List.foldlM_cons]
    cases hx : step s x with
    | error e => simp [run, step?, hx, Except.toOption]
    | ok s₁ =>
      simp only [run, hx]
      rw [ih s₁ (index + 1), step?, hx]
      rfl

omit [Crypto] in
/-- **Independent extrinsics apply in any order or in none**, by induction over the permutation. -/
theorem foldlM_step?_perm (hperm : xs.Perm ys) (hind : xs.Pairwise Extrinsic.Independent)
    (s : State) : xs.foldlM step? s = ys.foldlM step? s := by
  induction hperm generalizing s with
  | nil => rfl
  | cons x _ ih =>
    rw [List.foldlM_cons, List.foldlM_cons]
    have hrest := (List.pairwise_cons.1 hind).2
    exact congrArg _ (funext fun m => ih hrest m)
  | swap x y l =>
    have hyx : y.Independent x := (List.pairwise_cons.1 hind).1 x List.mem_cons_self
    simp only [List.foldlM_cons, Option.bind_eq_bind, ← Option.bind_assoc]
    rw [step_comm hyx]
  | trans hfirst _ ih₁ ih₂ =>
    rw [ih₁ hind s, ih₂ (hfirst.pairwise hind Extrinsic.Independent.symm) s]

omit [Crypto] in
theorem exists_foldlM_step?_iff (hind : xs.Pairwise Extrinsic.Independent) (s : State) :
    (∃ m, xs.foldlM step? s = some m) ↔ ∀ x ∈ xs, ∃ batch, writes s x = .ok batch := by
  induction xs generalizing s with
  | nil => simp
  | cons x xs ih =>
    obtain ⟨hx, hrest⟩ := List.pairwise_cons.1 hind
    rw [List.foldlM_cons, List.forall_mem_cons, step?_eq_map]
    cases hbatch : writes s x with
    | error e => simp [Except.toOption]
    | ok batch =>
      have hsame : ∀ y ∈ xs, writes (batch.apply s) y = writes s y := fun y hy =>
        writes_step (hx y hy) (step_eq_ok_iff.2 ⟨batch, hbatch, rfl⟩)
      have hothers : (∀ y ∈ xs, ∃ b, writes (batch.apply s) y = .ok b) ↔
          ∀ y ∈ xs, ∃ b, writes s y = .ok b :=
        forall₂_congr fun y hy => by rw [hsame y hy]
      simp [Except.toOption, ih hrest, hothers]

/-! ### One extrinsic among others -/

omit [Crypto] in
theorem writes_sift (h : ∀ y ∈ xs, y.Independent x) (s : State) :
    writes (sift s xs).1 x = writes s x := by
  induction xs generalizing s with
  | nil => rfl
  | cons y ys ih =>
    obtain ⟨hy, hrest⟩ := List.forall_mem_cons.1 h
    cases hstep : step s y with
    | error e =>
      simp only [sift, hstep]
      exact ih hrest s
    | ok s₁ =>
      simp only [sift, hstep]
      exact (ih hrest s₁).trans (writes_step hy hstep)

/-- Where all extrinsics apply, trying them leads to the same state as applying them. -/
theorem sift_of_run {index : Nat} (h : run s index xs = .ok m) : (sift s xs).1 = m := by
  induction xs generalizing s index with
  | nil =>
    cases h
    rfl
  | cons x xs ih =>
    obtain ⟨s₁, hstep, hrest⟩ := run_cons_ok_cases h
    simp only [sift, hstep]
    exact ih hrest

omit [Crypto] in
theorem independent_of_subperm {before : List Extrinsic} (hind : xs.Pairwise Extrinsic.Independent)
    (hsub : (before ++ [x]).Subperm xs) : ∀ y ∈ before, y.Independent x := by
  obtain ⟨zs, hperm, hsublist⟩ := hsub
  have hpart := hperm.pairwise (hind.sublist hsublist) Extrinsic.Independent.symm
  intro y hy
  exact (List.pairwise_append.1 hpart).2.2 y hy x (List.mem_singleton_self x)

theorem applyAll_eq_ok_iff {output : Output} :
    applyAll s xs = .ok output ↔ ∃ m, xs.foldlM step? s = some m ∧ output = finish m xs := by
  rw [← toOption_run s 0 xs, applyAll]
  cases run s 0 xs <;> simp [Except.toOption, eq_comm]

/-- **Independent extrinsics commute.**  Let the footprints of some extrinsics be pairwise disjoint.

* In every order they apply as a block if and only if they do in the given one, and then lead to the
  same entries, version and state digest.
* They apply as a block if and only if each of them applies alone.
* Whichever others are tried or applied before one of them, and in whatever order, it is refused with
  the same error, or writes the same, as alone. -/
theorem independent_extrinsics_commute (s : State) (hind : xs.Pairwise Extrinsic.Independent) :
    (∀ ys, ys.Perm xs →
      ((∃ o, applyAll s ys = .ok o) ↔ ∃ o, applyAll s xs = .ok o) ∧
      ∀ o o', applyAll s xs = .ok o → applyAll s ys = .ok o' →
        o'.state.entries = o.state.entries ∧ o'.state.version = o.state.version ∧
          o'.stateDigest = o.stateDigest) ∧
    ((∃ o, applyAll s xs = .ok o) ↔ ∀ x ∈ xs, ∃ batch, writes s x = .ok batch) ∧
    ∀ before x, (before ++ [x]).Subperm xs →
      writes (sift s before).1 x = writes s x ∧
      ∀ index m, run s index before = .ok m → writes m x = writes s x := by
  have happlies : ∀ ys, (∃ o, applyAll s ys = .ok o) ↔ ∃ m, ys.foldlM step? s = some m := by
    intro ys
    simp only [applyAll_eq_ok_iff]
    constructor
    · rintro ⟨_, m, hm, -⟩
      exact ⟨m, hm⟩
    · rintro ⟨m, hm⟩
      exact ⟨_, m, hm, rfl⟩
  refine ⟨fun ys hperm => ?_, (happlies xs).trans (exists_foldlM_step?_iff hind s),
    fun before x hsub => ?_⟩
  · have hsame := foldlM_step?_perm hperm.symm hind s
    refine ⟨by rw [happlies, happlies, hsame], fun o o' ho ho' => ?_⟩
    obtain ⟨m, hm, rfl⟩ := applyAll_eq_ok_iff.1 ho
    obtain ⟨m', hm', rfl⟩ := applyAll_eq_ok_iff.1 ho'
    rw [← hsame, hm] at hm'
    cases hm'
    exact ⟨rfl, rfl, rfl⟩
  · have halone := writes_sift (independent_of_subperm hind hsub) s
    refine ⟨halone, fun index m hm => ?_⟩
    rw [← sift_of_run hm]
    exact halone

/-- A state in which one account holds five. -/
def fiveHeld : State := ⟨(balanceWrite (.zero 32) 5).apply .empty, 0⟩

/-- One extrinsic sets a value, and the other one gives everything away. -/
def scattered : List Extrinsic :=
  [.ofCall (.set [1] [2]) 0, .ofCall (.transfer (.zero 32) (.ofNat 32 1) 5) 0]

omit [Crypto] in
/-- A value is set and a balance moved, in either order. -/
theorem independent_extrinsics_commute_two :
    letI := Crypto.transparent
    scattered.Pairwise Extrinsic.Independent ∧
      ∃ o o', applyAll fiveHeld scattered = .ok o ∧ applyAll fiveHeld scattered.reverse = .ok o' ∧
        o'.state.entries = o.state.entries ∧ o'.stateDigest = o.stateDigest ∧
        o.state.entries.size = 2 := by
  let _ := Crypto.transparent
  have hind : scattered.Pairwise Extrinsic.Independent := by
    have hkeys : scattered.map Extrinsic.footprint =
        [[[1]], [balanceKey (.zero 32), balanceKey (.ofNat 32 1)]] := by decide +kernel
    have hapart : (scattered.map Extrinsic.footprint).Pairwise List.Disjoint := by
      rw [hkeys, List.pairwise_pair]
      intro k hone htwo
      cases List.mem_singleton.1 hone
      revert htwo
      decide
    exact hapart.of_map Extrinsic.footprint fun _ _ h => h
  obtain ⟨hany, -, -⟩ := independent_extrinsics_commute fiveHeld hind
  obtain ⟨happlies, hsame⟩ := hany scattered.reverse scattered.reverse_perm
  have hsize : (applyAll fiveHeld scattered).toOption.map (fun o => o.state.entries.size) =
      some 2 := by decide +kernel
  obtain ⟨o, ho, htwo⟩ := Option.map_eq_some_iff.1 hsize
  rw [toOption_eq_some_iff] at ho
  obtain ⟨o', ho'⟩ := happlies.2 ⟨o, ho⟩
  obtain ⟨hentries, -, hdigest⟩ := hsame o o' ho ho'
  exact ⟨hind, o, o', ho, ho', hentries, hdigest, htwo⟩

end Execution

end LedgerChain
