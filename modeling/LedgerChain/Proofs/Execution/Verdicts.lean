import LedgerChain.Proofs.Execution.Select

/-!
# Choosing extrinsics and judging blocks agree

An author sifts candidates and skips those that do not apply; a block is refused for the first one
that does not.  Both read off the same verdicts: every candidate in turn is judged on the state that
the accepted ones before it led to (`verdicts`, `mem_verdicts_split`).

* `sift_eq_verdicts` : what is included and what is left out are the two halves of the verdicts.
* `run_eq_error_of_verdicts` : a block fails with the first refusal among the verdicts.
* `select_agrees_with_applyAll` : the two ways of applying a list, side by side.
-/

namespace LedgerChain

namespace Execution

/-! ### Verdicts -/

/-- A candidate, with the error it is refused with if it is. -/
abbrev Verdict := Extrinsic × Option ExtrinsicError

/-- The error that an extrinsic gives on a state, if it gives one. -/
def refusal (s : State) (x : Extrinsic) : Option ExtrinsicError :=
  match step s x with
  | .error e => some e
  | .ok _ => none

/-- The state after a candidate; a refused one leaves the state as it is. -/
def stepOrStay (s : State) (x : Extrinsic) : State :=
  match step s x with
  | .error _ => s
  | .ok s' => s'

/-- The verdicts on candidates, each on the state that the accepted ones before it lead to. -/
def verdicts (s : State) : List Extrinsic → List Verdict
  | [] => []
  | x :: xs => (x, refusal s x) :: verdicts (stepOrStay s x) xs

/-- The candidates that are accepted, in order. -/
def accepted (js : List Verdict) : List Extrinsic :=
  (js.filter fun j => j.2.isNone).map Prod.fst

/-- The candidates that are refused, in order and with their errors. -/
def refused (js : List Verdict) : List (Extrinsic × ExtrinsicError) :=
  js.filterMap fun j => j.2.map fun e => (j.1, e)

variable {s s' m : State} {x : Extrinsic} {xs : List Extrinsic} {e : ExtrinsicError}
variable {v : Option ExtrinsicError} {before after js : List Verdict}

@[simp] theorem accepted_nil : accepted [] = [] := rfl

@[simp] theorem accepted_cons_none : accepted ((x, none) :: js) = x :: accepted js := rfl

@[simp] theorem accepted_cons_some : accepted ((x, some e) :: js) = accepted js := rfl

@[simp] theorem refused_nil : refused [] = [] := rfl

@[simp] theorem refused_cons_none : refused ((x, none) :: js) = refused js := rfl

@[simp] theorem refused_cons_some : refused ((x, some e) :: js) = (x, e) :: refused js := rfl

theorem accepted_sublist (js : List Verdict) : (accepted js).Sublist (js.map Prod.fst) :=
  List.filter_sublist.map Prod.fst

theorem refused_sublist (js : List Verdict) :
    ((refused js).map Prod.fst).Sublist (js.map Prod.fst) := by
  induction js with
  | nil => exact .slnil
  | cons j js ih =>
    obtain ⟨x, v⟩ := j
    cases v with
    | none => exact ih.cons x
    | some e => exact ih.cons_cons x

/-- The first refusal, if there is one, comes after candidates that are all accepted. -/
theorem exists_first_refusal {rest : List (Extrinsic × ExtrinsicError)}
    (h : refused js = (x, e) :: rest) :
    ∃ before after, js = before ++ (x, some e) :: after ∧ refused before = [] := by
  induction js with
  | nil => simp at h
  | cons j js ih =>
    obtain ⟨y, w⟩ := j
    cases w with
    | none =>
      obtain ⟨before, after, rfl, hb⟩ := ih h
      exact ⟨(y, none) :: before, after, rfl, hb⟩
    | some f =>
      rw [refused_cons_some, List.cons.injEq, Prod.mk.injEq] at h
      obtain ⟨⟨rfl, rfl⟩, -⟩ := h
      exact ⟨[], js, rfl, rfl⟩

theorem accepted_of_refused_eq_nil (h : refused js = []) : accepted js = js.map Prod.fst := by
  induction js with
  | nil => rfl
  | cons j js ih =>
    obtain ⟨x, v⟩ := j
    cases v with
    | none => exact congrArg (x :: ·) (ih h)
    | some e => simp at h

@[simp] theorem map_fst_verdicts (s : State) (xs : List Extrinsic) :
    (verdicts s xs).map Prod.fst = xs := by
  induction xs generalizing s with
  | nil => rfl
  | cons x xs ih => simp only [verdicts, List.map_cons, ih]

theorem refusal_eq_some (h : step s x = .error e) : refusal s x = some e := by
  simp only [refusal, h]

theorem refusal_eq_none (h : step s x = .ok s') : refusal s x = none := by
  simp only [refusal, h]

theorem refusal_eq_some_iff : refusal s x = some e ↔ step s x = .error e := by
  unfold refusal
  split <;> simp_all

/-- **Sifting splits the candidates by their verdicts.** -/
theorem sift_eq_verdicts (s : State) (xs : List Extrinsic) :
    (sift s xs).2 = (accepted (verdicts s xs), refused (verdicts s xs)) := by
  induction xs generalizing s with
  | nil => rfl
  | cons x xs ih =>
    cases hx : step s x with
    | error e =>
      simp only [sift, verdicts, refusal, stepOrStay, hx, accepted_cons_some, refused_cons_some,
        ih s]
    | ok s₁ =>
      simp only [sift, verdicts, refusal, stepOrStay, hx, accepted_cons_none, refused_cons_none,
        ih s₁]

variable [Crypto]

/-- **Every verdict is given on the state that the accepted candidates before it lead to.** -/
theorem mem_verdicts_split (index : Nat) (h : verdicts s xs = before ++ (x, v) :: after) :
    ∃ m, run s index (accepted before) = .ok m ∧ refusal m x = v := by
  induction before generalizing s xs index with
  | nil =>
    cases xs with
    | nil => simp [verdicts] at h
    | cons y ys =>
      rw [verdicts, List.nil_append, List.cons.injEq, Prod.mk.injEq] at h
      obtain ⟨⟨rfl, hv⟩, -⟩ := h
      exact ⟨s, rfl, hv⟩
  | cons j before ih =>
    cases xs with
    | nil => simp [verdicts] at h
    | cons y ys =>
      rw [verdicts, List.cons_append, List.cons.injEq] at h
      obtain ⟨rfl, h⟩ := h
      cases hy : step s y with
      | error e =>
        rw [refusal_eq_some hy, accepted_cons_some]
        rw [stepOrStay, hy] at h
        exact ih index h
      | ok s₁ =>
        rw [refusal_eq_none hy, accepted_cons_none]
        obtain ⟨m, hm, hv⟩ := ih (s := s₁) (index + 1) (by simpa only [stepOrStay, hy] using h)
        exact ⟨m, by simpa only [run, hy] using hm, hv⟩

/-- **A list fails at its first refusal**, with the position and the error of that one. -/
theorem run_eq_error_of_verdicts (index : Nat) (h : verdicts s xs = before ++ (x, some e) :: after)
    (hb : refused before = []) : run s index xs = .error ⟨index + before.length, x.id, e⟩ := by
  induction before generalizing s xs index with
  | nil =>
    cases xs with
    | nil => simp [verdicts] at h
    | cons y ys =>
      rw [verdicts, List.nil_append, List.cons.injEq, Prod.mk.injEq] at h
      obtain ⟨⟨rfl, hv⟩, -⟩ := h
      cases hy : step s y with
      | error f =>
        rw [refusal_eq_some hy, Option.some.injEq] at hv
        simp only [run, hy, hv, List.length_nil, Nat.add_zero]
      | ok s₁ => simp [refusal_eq_none hy] at hv
  | cons j before ih =>
    cases xs with
    | nil => simp [verdicts] at h
    | cons y ys =>
      rw [verdicts, List.cons_append, List.cons.injEq] at h
      obtain ⟨rfl, h⟩ := h
      cases hy : step s y with
      | error f => simp [refusal_eq_some hy] at hb
      | ok s₁ =>
        rw [refusal_eq_none hy, refused_cons_none] at hb
        have := ih (s := s₁) (index + 1) (by simpa only [stepOrStay, hy] using h) hb
        simp only [run, hy, this, List.length_cons, Nat.add_right_comm, Nat.add_assoc]

/-- **Authors and importers agree on what extrinsics do.**  For every state and all candidates, with
the selection that an author makes of them:

* the included ones apply as a block, with exactly the output of the selection;
* the included and the excluded ones are the candidates with and without an error in one list of
  verdicts on all candidates in order, and each verdict is the one on the state that the included
  candidates before it lead to;
* all candidates apply as a block if and only if none is excluded, and then with the output of the
  selection; otherwise the block fails with the position, the identifier and the error of the first
  that is excluded. -/
theorem select_agrees_with_applyAll (s : State) (candidates : List Extrinsic) :
    let sel := select s candidates
    let js := verdicts s candidates
    applyAll s sel.included = .ok sel.output ∧
    js.map Prod.fst = candidates ∧
    sel.included = accepted js ∧ sel.included.Sublist candidates ∧
    sel.excluded = refused js ∧ (sel.excluded.map Prod.fst).Sublist candidates ∧
    (sel.included ++ sel.excluded.map Prod.fst).Perm candidates ∧
    (∀ before x v after, js = before ++ (x, v) :: after →
      ∃ m, run s 0 (accepted before) = .ok m ∧ ∀ e, v = some e ↔ step m x = .error e) ∧
    (∀ output, applyAll s candidates = .ok output ↔ sel.excluded = [] ∧ output = sel.output) ∧
    ∀ x e rest, sel.excluded = (x, e) :: rest →
      ∃ before after, js = before ++ (x, some e) :: after ∧ refused before = [] ∧
        applyAll s candidates = .error ⟨before.length, x.id, e⟩ := by
  intro sel js
  have hsel : sel.included = accepted js ∧ sel.excluded = refused js :=
    Prod.mk.inj (sift_eq_verdicts s candidates)
  have hfst : js.map Prod.fst = candidates := map_fst_verdicts s candidates
  have happly : applyAll s sel.included = .ok sel.output := applyAll_select s candidates
  have hfail : ∀ x e rest, sel.excluded = (x, e) :: rest →
      ∃ before after, js = before ++ (x, some e) :: after ∧ refused before = [] ∧
        applyAll s candidates = .error ⟨before.length, x.id, e⟩ := by
    intro x e rest hrest
    obtain ⟨before, after, hjs, hb⟩ := exists_first_refusal (hsel.2.symm.trans hrest)
    refine ⟨before, after, hjs, hb, ?_⟩
    simp only [applyAll, run_eq_error_of_verdicts 0 hjs hb, Nat.zero_add]
  refine ⟨happly, hfst, hsel.1, ?_, hsel.2, ?_, perm_sift s candidates, ?_, ?_, hfail⟩
  · rw [hsel.1, ← hfst]
    exact accepted_sublist js
  · rw [hsel.2, ← hfst]
    exact refused_sublist js
  · intro before x v after hjs
    obtain ⟨m, hm, rfl⟩ := mem_verdicts_split 0 hjs
    exact ⟨m, hm, fun e => refusal_eq_some_iff⟩
  -- all candidates apply if and only if none of them is refused
  · intro output
    cases hexcl : sel.excluded with
    | nil =>
      have hall : sel.included = candidates := by
        rw [hsel.1, accepted_of_refused_eq_nil (hsel.2.symm.trans hexcl), hfst]
      rw [hall] at happly
      rw [happly, Except.ok.injEq]
      exact ⟨fun h => ⟨rfl, h.symm⟩, fun h => h.2.symm⟩
    | cons first rest =>
      obtain ⟨before, after, -, -, herr⟩ := hfail first.1 first.2 rest hexcl
      simp [herr]

end Execution

end LedgerChain
