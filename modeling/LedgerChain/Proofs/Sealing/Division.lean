import LedgerChain.Proofs.Crypto.Transparent

/-!
# Divisions of a sealing rule

Sealing by work compares a hash with a quotient by a difficulty, which may come from a seal that
anyone has made up; sealing by authorities takes a remainder by their number.  Division by zero gives
zero here, and in other places the end of the program.

Both rules are therefore written down a second time, so that a division by zero leaves no answer at
all (`quotient?`, `remainder?`).  They give the same answers on all inputs
(`Engine.validateStrict_gives`, `Engine.produceStrict_gives`), so nothing is ever divided by zero.
What a seal is worth is put together with this in `Engine.seals_sound`.
-/

namespace LedgerChain

/-- A quotient.  There is none by zero. -/
def quotient? (a b : Nat) : Option Nat := if b = 0 then none else some (a / b)

/-- A remainder.  There is none by zero. -/
def remainder? (a b : Nat) : Option Nat := if b = 0 then none else some (a % b)

/-- An attempt that has no answer if it divides by zero. -/
abbrev Strict (α : Type) := ExceptT SealError Option α

namespace Strict

variable {α β : Type} {m : Strict α} {x : Except SealError α} {f : α → Strict β}
  {g : α → Except SealError β} {answer : Option α} {a : α}

/-- An attempt never divides by zero, and gives an answer. -/
def Gives (m : Strict α) (x : Except SealError α) : Prop := m.run = some x

theorem gives_lift (x : Except SealError α) : Gives (liftM x) x := rfl

theorem Gives.bind (hm : m.Gives x) (hf : ∀ a, x = .ok a → (f a).Gives (g a)) :
    Gives (m >>= f) (x >>= g) := by
  rw [Gives, ExceptT.run_bind, hm]
  cases x with
  | error e => rfl
  | ok a => exact hf a rfl

theorem gives_divide {y : Except SealError β} (hanswer : answer = some a) (hf : (f a).Gives y) :
    Gives (liftM answer >>= f) y := by
  rw [hanswer]
  exact hf

end Strict

variable [Crypto]

/-! ### Work -/

namespace WorkRule

omit [Crypto] in
/-- `meets`, with a division that may fail. -/
def meetsStrict (hash : Digest) (difficulty : UInt64) : Option Bool :=
  (quotient? (Nat.pow 2 128 - 1) difficulty.toNat).map fun limit =>
    Bytes.toNatBE (hash.toList.take 16) ≤ limit

/-- `isGood`, with a division that may fail. -/
def isGoodStrict (commitment : Digest) (difficulty nonce : UInt64) : Option Bool :=
  meetsStrict (sealHash commitment difficulty nonce) difficulty

/-- `validate`, with a division that may fail. -/
def validateStrict (rule : WorkRule) (h parent : Header) (resulting : Digest) : Strict Unit := do
  Sealing.checkHeader .work h parent
  let proof : WorkProof ← Sealing.readProof h.sealedBy
  if proof.difficulty < rule.minDifficulty then
    throw (.insufficientDifficulty proof.difficulty rule.minDifficulty)
  else do
    let good ← isGoodStrict (h.commitment .work resulting) proof.difficulty proof.nonce
    if good then pure () else throw (.thresholdNotMet proof.difficulty)

omit [Crypto] in
/-- `search`, for a test that may fail. -/
def searchStrict (good : UInt64 → Option Bool) (interruption : Nat → Option SealError) :
    (left tried : Nat) → (nonce : UInt64) → Strict UInt64
  | 0, _, _ => throw .noncesExhausted
  | left + 1, tried, nonce =>
    match if tried % pollInterval = 0 then interruption (tried / pollInterval) else none with
    | some e => throw e
    | none => do
      let found ← good nonce
      if found then pure nonce
      else searchStrict good interruption left (tried + 1) (nonce + 1)

/-- `produce`, with a division that may fail. -/
def produceStrict (rule : WorkRule) (t : HeaderTemplate) (parent : Header) (resulting : Digest)
    (ctx : SealContext) : Strict Seal := do
  Sealing.checkPlacement t parent
  let difficulty := rule.targetDifficulty ctx.workDifficulty
  let commitment := t.commitment .work resulting
  let nonce ← searchStrict (isGoodStrict commitment difficulty) ctx.interruption searchLimit 0
    ctx.nonceStart
  pure ⟨.work, Wire.encode (WorkProof.mk difficulty nonce)⟩

variable {rule : WorkRule} {t : HeaderTemplate} {h parent : Header} {resulting : Digest}
  {ctx : SealContext} {difficulty : UInt64}

theorem isGoodStrict_eq (hne : difficulty ≠ 0) (commitment : Digest) (nonce : UInt64) :
    isGoodStrict commitment difficulty nonce = some (isGood commitment difficulty nonce) := by
  have hdivisor : difficulty.toNat ≠ 0 := fun hzero => hne (UInt64.toNat_inj.1 hzero)
  simp [isGoodStrict, meetsStrict, quotient?, hdivisor, isGood, meets]

omit [Crypto] in
theorem ne_zero_of_not_lt (hmin : rule.minDifficulty ≠ 0) (hle : ¬ difficulty < rule.minDifficulty) :
    difficulty ≠ 0 := by
  rintro rfl
  exact hle (UInt64.pos_iff_ne_zero.2 hmin)

/-- **The check divides by no difficulty that is too low**, so not by zero. -/
theorem validateStrict_gives (hmin : rule.minDifficulty ≠ 0) :
    (rule.validateStrict h parent resulting).Gives (rule.validate h parent resulting) := by
  refine .bind (Strict.gives_lift _) fun _ _ => .bind (Strict.gives_lift _) fun proof _ => ?_
  split
  · rfl
  · rename_i hle
    refine Strict.gives_divide (isGoodStrict_eq (ne_zero_of_not_lt hmin hle) _ _) ?_
    split <;> rfl

omit [Crypto] in
theorem searchStrict_gives {good : UInt64 → Bool} {strict : UInt64 → Option Bool}
    (hgood : ∀ nonce, strict nonce = some (good nonce)) (interruption : Nat → Option SealError)
    (left tried : Nat) (nonce : UInt64) :
    (searchStrict strict interruption left tried nonce).Gives
      (search good interruption left tried nonce) := by
  induction left generalizing tried nonce with
  | zero => rfl
  | succ left ih =>
    rw [searchStrict, search]
    cases (if tried % pollInterval = 0 then interruption (tried / pollInterval) else none) with
    | some e => rfl
    | none =>
      refine Strict.gives_divide (hgood nonce) ?_
      cases good nonce with
      | true => rfl
      | false => exact ih _ _

/-- **The search divides by the difficulty that it seals at**, which is at least the minimum. -/
theorem produceStrict_gives (hmin : rule.minDifficulty ≠ 0) :
    (rule.produceStrict t parent resulting ctx).Gives (rule.produce t parent resulting ctx) := by
  have hne := ne_zero_of_not_lt hmin (not_targetDifficulty_lt rule ctx.workDifficulty)
  exact .bind (Strict.gives_lift _) fun _ _ =>
    .bind (searchStrict_gives (isGoodStrict_eq hne _) _ _ _ _) fun _ _ => rfl

end WorkRule

/-! ### Authorities -/

namespace AuthorityRule

/-- `expected?`, with a division that may fail. -/
def expectedStrict (rule : AuthorityRule) (height : Nat) : Option (Option Nat) :=
  if rule.roundRobin && !rule.authorities.isEmpty then
    (remainder? (height - 1) rule.authorities.length).map some
  else some none

/-- `expectedInstead?`, with a division that may fail. -/
def expectedInsteadStrict (rule : AuthorityRule) (height index : Nat) : Option (Option Nat) :=
  (rule.expectedStrict height).map fun
    | none => none
    | some expected => if index = expected then none else some expected

/-- `validate`, with a division that may fail. -/
def validateStrict (rule : AuthorityRule) (h parent : Header) (resulting : Digest) :
    Strict Unit := do
  Sealing.checkHeader .authority h parent
  let proof : AuthorityProof ← Sealing.readProof h.sealedBy
  match rule.authorities[proof.index.toNat]? with
  | none => throw (.unknownAuthority proof.index)
  | some key => do
    let other ← rule.expectedInsteadStrict h.height.toNat proof.index.toNat
    match other with
    | some expected => throw (.wrongAuthority proof.index h.height.toNat expected)
    | none =>
      if Crypto.verify proof.signature (h.commitment .authority resulting) key then pure ()
      else throw (.badSignature proof.index)

/-- `produce`, with a division that may fail. -/
def produceStrict (rule : AuthorityRule) (t : HeaderTemplate) (parent : Header)
    (resulting : Digest) (ctx : SealContext) : Strict Seal := do
  Sealing.checkPlacement t parent
  match ctx.interruption 0 with
  | some e => throw e
  | none =>
    match ctx.authoringKey with
    | none => throw .missingAuthoringKey
    | some secret =>
      match Crypto.publicKey secret with
      | none => throw .missingAuthoringKey
      | some key =>
        match rule.authorities.findIdx? (· = key) with
        | none => throw .notAnAuthority
        | some index => do
          let other ← rule.expectedInsteadStrict t.height.toNat index
          match other with
          | some _ => throw (.notOurTurn t.height.toNat)
          | none =>
            match Crypto.sign secret (t.commitment .authority resulting) with
            | none => throw .missingAuthoringKey
            | some signature =>
              pure ⟨.authority, Wire.encode (AuthorityProof.mk (UInt32.ofNat index) signature)⟩

variable {rule : AuthorityRule} {t : HeaderTemplate} {h parent : Header} {resulting : Digest}
  {ctx : SealContext}

omit [Crypto] in
/-- **The remainder is only taken by the length of a list that is not empty.** -/
theorem expectedInsteadStrict_eq (rule : AuthorityRule) (height index : Nat) :
    rule.expectedInsteadStrict height index = some (rule.expectedInstead? height index) := by
  have hexpected : rule.expectedStrict height = some (rule.expected? height) := by
    rw [expectedStrict, expected?]
    split
    · rename_i hturns
      have hne : rule.authorities.length ≠ 0 := by
        simp_all
      rw [remainder?, if_neg hne]
      rfl
    · rfl
  rw [expectedInsteadStrict, hexpected]
  rfl

theorem validateStrict_gives :
    (rule.validateStrict h parent resulting).Gives (rule.validate h parent resulting) := by
  refine .bind (Strict.gives_lift _) fun _ _ => .bind (Strict.gives_lift _) fun proof _ => ?_
  cases rule.authorities[proof.index.toNat]? with
  | none => rfl
  | some key =>
    refine Strict.gives_divide (rule.expectedInsteadStrict_eq _ _) ?_
    cases rule.expectedInstead? h.height.toNat proof.index.toNat with
    | some expected => rfl
    | none =>
      dsimp only
      split <;> rfl

theorem produceStrict_gives :
    (rule.produceStrict t parent resulting ctx).Gives (rule.produce t parent resulting ctx) := by
  refine .bind (Strict.gives_lift _) fun _ _ => ?_
  cases ctx.interruption 0 with
  | some e => rfl
  | none =>
    cases ctx.authoringKey with
    | none => rfl
    | some secret =>
      dsimp only
      cases Crypto.publicKey secret with
      | none => rfl
      | some key =>
        dsimp only
        cases rule.authorities.findIdx? (· = key) with
        | none => rfl
        | some index =>
          dsimp only
          refine Strict.gives_divide (rule.expectedInsteadStrict_eq _ _) ?_
          cases rule.expectedInstead? t.height.toNat index with
          | some expected => rfl
          | none =>
            dsimp only
            cases Crypto.sign secret (t.commitment .authority resulting) with
            | none => rfl
            | some signature => rfl

end AuthorityRule

/-! ### Both rules -/

/-- What a seal is to weigh that is made at a requested difficulty. -/
def SealRule.weightAt : SealRule → (requested : Option UInt64) → Nat
  | .work minimum, requested => max 1 (max minimum.toNat (requested.getD 0).toNat)
  | .authority _ _, _ => 1

omit [Crypto] in
theorem one_le_weightAt (rule : SealRule) (requested : Option UInt64) :
    1 ≤ rule.weightAt requested := by
  cases rule with
  | work minimum => exact Nat.le_max_left _ _
  | authority authorities roundRobin => exact Nat.le_refl 1

/-- The seals of a rule can be relied on: with authorities, signatures verify and positions fit. -/
def SealRule.Dependable : SealRule → Prop
  | .work _ => True
  | .authority authorities roundRobin =>
    Crypto.SignaturesVerify ∧ (SealRule.authority authorities roundRobin).PositionsFit

namespace WorkRule

omit [Crypto] in
theorem toNat_minDifficulty_ofMinimum (minimum : UInt64) :
    (ofMinimum minimum).minDifficulty.toNat = max 1 minimum.toNat := by
  rw [ofMinimum]
  split
  · rename_i hzero
    rw [hzero]
    rfl
  · rename_i hne
    have hpos : minimum.toNat ≠ 0 := fun hzero => hne (UInt64.toNat_inj.1 hzero)
    exact (Nat.max_eq_right (Nat.one_le_iff_ne_zero.2 hpos)).symm

omit [Crypto] in
theorem toNat_targetDifficulty (rule : WorkRule) (requested : Option UInt64) :
    (rule.targetDifficulty requested).toNat =
      max rule.minDifficulty.toNat (requested.getD 0).toNat := by
  simp only [targetDifficulty, UInt64.lt_iff_toNat_lt]
  cases requested with
  | none => simp
  | some difficulty =>
    simp only [Option.getD_some]
    split <;> omega

theorem weight_complete {rule : WorkRule} {t : HeaderTemplate} {parent : Header}
    {resulting : Digest} {ctx : SealContext} {mark : Seal}
    (h : rule.produce t parent resulting ctx = .ok mark) :
    weight (t.complete mark) = .ok (rule.targetDifficulty ctx.workDifficulty).toNat := by
  obtain ⟨-, nonce, -, rfl⟩ := produce_ok_cases h
  exact weight_eq (h := t.complete _) (Sealing.readProof_encode canonical_workProof trivial .work)

end WorkRule

namespace Engine

/-- `validate`, with divisions that may fail. -/
def validateStrict (engine : Engine) (h parent : Header) (resulting : Digest) : Strict Unit :=
  match engine with
  | work rule => rule.validateStrict h parent resulting
  | authority rule => rule.validateStrict h parent resulting

/-- `produce`, with divisions that may fail. -/
def produceStrict (engine : Engine) (t : HeaderTemplate) (parent : Header) (resulting : Digest)
    (ctx : SealContext) : Strict Seal :=
  match engine with
  | work rule => rule.produceStrict t parent resulting ctx
  | authority rule => rule.produceStrict t parent resulting ctx

variable {rule : SealRule} {t : HeaderTemplate} {h parent : Header} {resulting : Digest}
  {ctx : SealContext} {mark : Seal}

/-- **No check of a seal divides by zero**, whatever bytes the seal consists of. -/
theorem validateStrict_gives :
    ((ofRule rule).validateStrict h parent resulting).Gives
      ((ofRule rule).validate h parent resulting) := by
  cases rule with
  | work minimum =>
    exact WorkRule.validateStrict_gives (WorkRule.minDifficulty_ofMinimum_ne_zero minimum)
  | authority authorities roundRobin => exact AuthorityRule.validateStrict_gives

/-- **No attempt to seal divides by zero.** -/
theorem produceStrict_gives :
    ((ofRule rule).produceStrict t parent resulting ctx).Gives
      ((ofRule rule).produce t parent resulting ctx) := by
  cases rule with
  | work minimum =>
    exact WorkRule.produceStrict_gives (WorkRule.minDifficulty_ofMinimum_ne_zero minimum)
  | authority authorities roundRobin => exact AuthorityRule.produceStrict_gives

theorem weight_eq_weightAt (h : (ofRule rule).produce t parent resulting ctx = .ok mark) :
    (ofRule rule).weight (t.complete mark) = .ok (rule.weightAt ctx.workDifficulty) := by
  cases rule with
  | work minimum =>
    have hweight := WorkRule.weight_complete h
    rw [WorkRule.toNat_targetDifficulty, WorkRule.toNat_minDifficulty_ofMinimum, Nat.max_assoc]
      at hweight
    exact hweight
  | authority authorities roundRobin => rfl

theorem weightAt_none_le (hv : (ofRule rule).validate h parent resulting = .ok ()) :
    ∃ w, (ofRule rule).weight h = .ok w ∧ rule.weightAt none ≤ w := by
  cases rule with
  | work minimum =>
    obtain ⟨w, hw, hle⟩ := WorkRule.minDifficulty_le_weight hv
    rw [WorkRule.toNat_minDifficulty_ofMinimum] at hle
    exact ⟨w, hw, by simpa [SealRule.weightAt] using hle⟩
  | authority authorities roundRobin => exact ⟨1, rfl, Nat.le_refl 1⟩

/-- **Seals are sound.**  A seal that was made is accepted, and weighs what was requested of it or
what the rule demands.  Every header whose seal is accepted has a weight, which is at least one and
what the rule demands.  Nothing on the way is divided by zero; reading a weight divides nothing. -/
theorem seals_sound (rule : SealRule) :
    (rule.Dependable → ∀ t parent resulting ctx mark,
      (ofRule rule).produce t parent resulting ctx = .ok mark →
        (ofRule rule).validate (t.complete mark) parent resulting = .ok () ∧
        (ofRule rule).weight (t.complete mark) = .ok (rule.weightAt ctx.workDifficulty)) ∧
    (∀ h parent resulting, (ofRule rule).validate h parent resulting = .ok () →
      ∃ w, (ofRule rule).weight h = .ok w ∧ 1 ≤ w ∧ rule.weightAt none ≤ w) ∧
    (∀ h parent resulting, ((ofRule rule).validateStrict h parent resulting).Gives
      ((ofRule rule).validate h parent resulting)) ∧
    ∀ t parent resulting ctx, ((ofRule rule).produceStrict t parent resulting ctx).Gives
      ((ofRule rule).produce t parent resulting ctx) := by
  refine ⟨fun hrule t parent resulting ctx mark hmade => ⟨?_, weight_eq_weightAt hmade⟩,
    fun h parent resulting hv => ?_, fun _ _ _ => validateStrict_gives,
    fun _ _ _ _ => produceStrict_gives⟩
  · cases rule with
    | work minimum => exact WorkRule.validate_complete hmade
    | authority authorities roundRobin =>
      exact AuthorityRule.validate_complete hrule.1 hrule.2 hmade
  · obtain ⟨w, hw, hle⟩ := weightAt_none_le hv
    exact ⟨w, hw, Nat.le_trans (one_le_weightAt rule none) hle, hle⟩

omit [Crypto] in
/-- Work without a minimum at difficulty five, and a single authority. -/
theorem seals_sound_both_rules :
    letI := Crypto.transparent
    letI parent := sampleHeader 3
    letI t := sampleTemplate parent
    (∃ mark, (ofRule (.work 0)).produce t parent (.zero 32) { workDifficulty := some 5 } = .ok mark ∧
      (ofRule (.work 0)).validate (t.complete mark) parent (.zero 32) = .ok () ∧
      (ofRule (.work 0)).weight (t.complete mark) = .ok 5) ∧
    ∃ mark, (ofRule (.authority [.zero 32] true)).produce t parent (.zero 32)
        { authoringKey := some (.zero 32) } = .ok mark ∧
      (ofRule (.authority [.zero 32] true)).validate (t.complete mark) parent (.zero 32) = .ok () ∧
      (ofRule (.authority [.zero 32] true)).weight (t.complete mark) = .ok 1 := by
  let := Crypto.transparent
  have hwork : ((ofRule (.work 0)).produce (sampleTemplate (sampleHeader 3)) (sampleHeader 3)
      (.zero 32) { workDifficulty := some 5 }).toOption.isSome := by decide +kernel
  have hsigned : ((ofRule (.authority [.zero 32] true)).produce (sampleTemplate (sampleHeader 3))
      (sampleHeader 3) (.zero 32) { authoringKey := some (.zero 32) }).toOption.isSome := by
    decide +kernel
  obtain ⟨mark, hmark⟩ := Option.isSome_iff_exists.1 hwork
  obtain ⟨mark', hmark'⟩ := Option.isSome_iff_exists.1 hsigned
  rw [toOption_eq_some_iff] at hmark hmark'
  have hfit : ([.zero 32] : List PublicKey).length ≤ UInt32.size := by decide
  exact ⟨⟨mark, hmark, (seals_sound (.work 0)).1 trivial _ _ _ _ _ hmark⟩, mark', hmark',
    (seals_sound (.authority [.zero 32] true)).1 ⟨Crypto.signaturesVerify_transparent, hfit⟩
      _ _ _ _ _ hmark'⟩

end Engine

end LedgerChain
