import LedgerChain.Proofs.Sealing.Division
import LedgerChain.Proofs.Tree.Walk

/-!
# The search for a nonce

Sealing by work tries nonces from a given one on, which wrap around, until one is good.  Before the
first of them and then before every `pollInterval`-th one it polls for a reason to stop.

The loop is written down as it runs, with a counter of 64 bits and a record of what it does
(`WorkRule.searchRound`).  It ends with what `search` computes (`WorkRule.searchLoop_ends`), and in
one of three ways, which say what it did and found (`WorkRule.SearchEnd`): at the first good nonce,
at a poll that sees a reason to stop, or when no nonce is left that it would try.

`WorkRule.seals_with_first_good` puts this together for a seal.
-/

namespace LedgerChain

/-- A transparent choice of cryptography with a hash that begins with the end of what is hashed. -/
@[reducible] def Crypto.mirrored : Crypto :=
  { Crypto.transparent with
    hash := fun bs => ⟨(bs.reverse ++ List.replicate 32 0).take 32, by simp⟩ }

namespace WorkRule

/-! ### What a search does -/

/-- What a search does. -/
inductive SearchAct where
  /-- It looks for a reason to stop.  Polls are numbered from zero. -/
  | poll (number : Nat)
  /-- It tries a nonce. -/
  | attempt (nonce : UInt64)
deriving DecidableEq

/-- The nonce at a place after the first one.  After the greatest one comes zero. -/
def nonceAt (start : UInt64) (k : Nat) : UInt64 := UInt64.ofNat (start.toNat + k)

/-- The poll before the nonce at a place, if it is time for one. -/
def pollsAt (k : Nat) : List SearchAct :=
  if k % pollInterval = 0 then [.poll (k / pollInterval)] else []

/-- What a search does with a number of nonces: it polls before the first one and then before every
`pollInterval`-th one. -/
def schedule (start : UInt64) (count : Nat) : List SearchAct :=
  (List.range count).flatMap fun k => pollsAt k ++ [.attempt (nonceAt start k)]

/-- Where a search is. -/
structure SearchPoint where
  nonce : UInt64
  /-- The number of nonces that were tried. -/
  tried : UInt64
  /-- What was done. -/
  acts : List SearchAct

/-- A round of the search, with a nonce and possibly a poll before it. -/
def searchRound (good : UInt64 → Bool) (interruption : Nat → Option SealError) (s : SearchPoint) :
    SearchPoint ⊕ (List SearchAct × Except SealError UInt64) :=
  let polled := s.acts ++ pollsAt s.tried.toNat
  match if s.tried.toNat % pollInterval = 0 then interruption (s.tried.toNat / pollInterval)
    else none with
  | some e => .inr (polled, .error e)
  | none =>
    let acts := polled ++ [.attempt s.nonce]
    if good s.nonce then .inr (acts, .ok s.nonce)
    else if s.tried + 1 = UInt64.ofNat searchLimit then .inr (acts, .error .noncesExhausted)
    else .inl ⟨s.nonce + 1, s.tried + 1, acts⟩

variable {good : UInt64 → Bool} {interruption : Nat → Option SealError} {start : UInt64}

/-- No nonce before a place is good. -/
def Fruitless (good : UInt64 → Bool) (start : UInt64) (k : Nat) : Prop :=
  ∀ j < k, good (nonceAt start j) = false

/-- No poll before a place sees a reason to stop. -/
def Calm (interruption : Nat → Option SealError) (k : Nat) : Prop :=
  ∀ poll, poll * pollInterval < k → interruption poll = none

/-- How a search ends: what it did, and what it found. -/
inductive SearchEnd (good : UInt64 → Bool) (interruption : Nat → Option SealError)
    (start : UInt64) : List SearchAct → Except SealError UInt64 → Prop
  /-- At the first good nonce. -/
  | found {k : Nat} (hk : k < searchLimit) (hgood : good (nonceAt start k) = true)
      (fruitless : Fruitless good start k) (calm : Calm interruption (k + 1)) :
      SearchEnd good interruption start (schedule start (k + 1)) (.ok (nonceAt start k))
  /-- At the first poll that sees a reason to stop. -/
  | stopped {poll : Nat} {e : SealError} (hlt : poll * pollInterval < searchLimit)
      (seen : interruption poll = some e) (fruitless : Fruitless good start (poll * pollInterval))
      (calm : Calm interruption (poll * pollInterval)) :
      SearchEnd good interruption start (schedule start (poll * pollInterval) ++ [.poll poll])
        (.error e)
  /-- When no more nonces are tried. -/
  | exhausted (fruitless : Fruitless good start searchLimit)
      (calm : Calm interruption searchLimit) :
      SearchEnd good interruption start (schedule start searchLimit) (.error .noncesExhausted)

/-! ### Places and schedules -/

theorem nonceAt_zero (start : UInt64) : nonceAt start 0 = start := by
  rw [nonceAt, Nat.add_zero, UInt64.ofNat_toNat]

theorem nonceAt_succ (start : UInt64) (k : Nat) : nonceAt start (k + 1) = nonceAt start k + 1 := by
  rw [nonceAt, nonceAt, ← Nat.add_assoc, UInt64.ofNat_add]
  rfl

theorem schedule_succ (start : UInt64) (count : Nat) :
    schedule start (count + 1) =
      schedule start count ++ pollsAt count ++ [.attempt (nonceAt start count)] := by
  simp [schedule, List.range_succ, List.append_assoc]

theorem schedule_mono (start : UInt64) {m n : Nat} (h : m ≤ n) :
    schedule start m <+: schedule start n := by
  induction h with
  | refl => exact List.prefix_rfl
  | step _ ih =>
    rw [schedule_succ, List.append_assoc]
    exact ih.trans (List.prefix_append _ _)

theorem mul_div_pollInterval (poll : Nat) : poll * pollInterval / pollInterval = poll :=
  Nat.mul_div_cancel poll (by decide)

theorem pollsAt_mul (poll : Nat) : pollsAt (poll * pollInterval) = [.poll poll] := by
  rw [pollsAt, if_pos (Nat.mul_mod_left poll pollInterval), mul_div_pollInterval]

theorem poll_mem_schedule_iff {poll count : Nat} :
    .poll poll ∈ schedule start count ↔ poll * pollInterval < count := by
  simp only [schedule, List.mem_flatMap, List.mem_range, List.mem_append,
    List.mem_singleton, reduceCtorEq, or_false]
  constructor
  · rintro ⟨k, hk, hmem⟩
    rw [pollsAt] at hmem
    split at hmem
    · rename_i hdue
      rw [List.mem_singleton, SearchAct.poll.injEq] at hmem
      rw [hmem, Nat.div_mul_cancel (Nat.dvd_of_mod_eq_zero hdue)]
      exact hk
    · cases hmem
  · intro hlt
    refine ⟨poll * pollInterval, hlt, ?_⟩
    rw [pollsAt_mul]
    exact List.mem_singleton_self _

theorem schedule_starts_with_poll {count : Nat} (h : 0 < count) :
    [.poll 0] <+: schedule start count :=
  List.IsPrefix.trans ⟨[.attempt (nonceAt start 0)], rfl⟩ (schedule_mono start h)

theorem schedule_covers_poll {poll count : Nat} (h : poll * pollInterval < count) :
    schedule start (poll * pollInterval) ++ [.poll poll] <+: schedule start count := by
  refine List.IsPrefix.trans ?_ (schedule_mono start h)
  rw [Nat.succ_eq_add_one, schedule_succ, pollsAt_mul]
  exact List.prefix_append _ _

/-! ### The loop -/

/-- Where a search is that has come to a place. -/
def placeAt (start : UInt64) (k : Nat) : SearchPoint :=
  ⟨nonceAt start k, UInt64.ofNat k, schedule start k⟩

theorem placeAt_zero (start : UInt64) : placeAt start 0 = ⟨start, 0, []⟩ := by
  rw [placeAt, nonceAt_zero]
  rfl

/-- What a search finds from a place on. -/
def searchFrom (good : UInt64 → Bool) (interruption : Nat → Option SealError) (start : UInt64)
    (k : Nat) : Except SealError UInt64 :=
  search good interruption (searchLimit - k) k (nonceAt start k)

theorem toNat_tried {k : Nat} (hk : k ≤ searchLimit) : (UInt64.ofNat k).toNat = k := by
  rw [UInt64.toNat_ofNat']
  exact Nat.mod_eq_of_lt (Nat.lt_of_le_of_lt hk (by decide))

/-- **What the round at a place does.** -/
theorem searchRound_placeAt {k : Nat} (hk : k < searchLimit) :
    searchRound good interruption (placeAt start k) =
      match if k % pollInterval = 0 then interruption (k / pollInterval) else none with
      | some e => .inr (schedule start k ++ pollsAt k, .error e)
      | none =>
        if good (nonceAt start k) then .inr (schedule start (k + 1), .ok (nonceAt start k))
        else if k + 1 = searchLimit then
          .inr (schedule start (k + 1), .error .noncesExhausted)
        else .inl (placeAt start (k + 1)) := by
  have hnext : UInt64.ofNat (k + 1) = UInt64.ofNat k + 1 := UInt64.ofNat_add k 1
  have hlast : UInt64.ofNat k + 1 = UInt64.ofNat searchLimit ↔ k + 1 = searchLimit := by
    rw [← hnext, ← UInt64.toNat_inj, toNat_tried hk, toNat_tried (Nat.le_refl _)]
  simp only [searchRound, placeAt, toNat_tried (Nat.le_of_lt hk), hlast, schedule_succ,
    nonceAt_succ, hnext]

theorem searchFrom_eq {k : Nat} (hk : k < searchLimit) :
    searchFrom good interruption start k =
      match if k % pollInterval = 0 then interruption (k / pollInterval) else none with
      | some e => .error e
      | none =>
        if good (nonceAt start k) then .ok (nonceAt start k)
        else searchFrom good interruption start (k + 1) := by
  have hrest : searchLimit - k = searchLimit - (k + 1) + 1 := by omega
  rw [searchFrom, searchFrom, hrest, nonceAt_succ]
  rfl

theorem searchFrom_limit : searchFrom good interruption start searchLimit =
    .error .noncesExhausted := by
  rw [searchFrom, Nat.sub_self, search]

theorem Fruitless.succ {k : Nat} (h : Fruitless good start k)
    (hbad : good (nonceAt start k) = false) : Fruitless good start (k + 1) := by
  intro j hj
  rcases Nat.lt_succ_iff_lt_or_eq.1 hj with hj | rfl
  · exact h j hj
  · exact hbad

/-- The poll before the nonce at a place, if there is one, sees no reason to stop. -/
theorem Calm.succ {k : Nat} (h : Calm interruption k)
    (hpoll : (if k % pollInterval = 0 then interruption (k / pollInterval) else none) = none) :
    Calm interruption (k + 1) := by
  intro poll hlt
  rcases Nat.lt_succ_iff_lt_or_eq.1 hlt with hlt | rfl
  · exact h poll hlt
  · rw [if_pos (Nat.mul_mod_left poll pollInterval), mul_div_pollInterval] at hpoll
    exact hpoll

theorem searchRound_cases {k : Nat} (hk : k < searchLimit) (hfruitless : Fruitless good start k)
    (hcalm : Calm interruption k) :
    (∃ acts, searchRound good interruption (placeAt start k) =
        .inr (acts, searchFrom good interruption start k) ∧
      SearchEnd good interruption start acts (searchFrom good interruption start k)) ∨
    searchRound good interruption (placeAt start k) = .inl (placeAt start (k + 1)) ∧
      searchFrom good interruption start k = searchFrom good interruption start (k + 1) ∧
      k + 1 < searchLimit ∧ Fruitless good start (k + 1) ∧ Calm interruption (k + 1) := by
  rw [searchRound_placeAt hk, searchFrom_eq hk]
  -- a poll stops the search, then the nonce is tried, then the last place is left
  cases hpoll : (if k % pollInterval = 0 then interruption (k / pollInterval) else none) with
  | some e =>
    refine Or.inl ⟨_, rfl, ?_⟩
    have hdue : k % pollInterval = 0 := by
      by_contra hnot
      rw [if_neg hnot] at hpoll
      cases hpoll
    obtain ⟨poll, hplace⟩ := Nat.dvd_of_mod_eq_zero hdue
    rw [Nat.mul_comm] at hplace
    subst hplace
    rw [if_pos hdue, mul_div_pollInterval] at hpoll
    rw [pollsAt_mul]
    exact .stopped hk hpoll hfruitless hcalm
  | none =>
    have hcalm' := hcalm.succ hpoll
    cases hgood : good (nonceAt start k) with
    | true => exact Or.inl ⟨_, rfl, .found hk hgood hfruitless hcalm'⟩
    | false =>
      have hfruitless' := hfruitless.succ hgood
      by_cases hlast : k + 1 = searchLimit
      · have hnone : searchFrom good interruption start (k + 1) = .error .noncesExhausted := by
          rw [hlast, searchFrom_limit]
        refine Or.inl ⟨schedule start (k + 1), ?_, ?_⟩
        · rw [hnone]
          exact if_pos hlast
        · rw [hlast] at hfruitless' hcalm'
          rw [hlast]
          exact .exhausted hfruitless' hcalm'
      · exact Or.inr ⟨if_neg hlast, rfl, by omega, hfruitless', hcalm'⟩

theorem searchFrom_ends (good : UInt64 → Bool) (interruption : Nat → Option SealError)
    (start : UInt64) {rest k : Nat} (hrest : k + (rest + 1) = searchLimit)
    (hfruitless : Fruitless good start k) (hcalm : Calm interruption k) :
    ∃ rounds acts,
      EndsIn (searchRound good interruption) rounds (placeAt start k)
        (acts, searchFrom good interruption start k) ∧
      SearchEnd good interruption start acts (searchFrom good interruption start k) := by
  induction rest generalizing k with
  | zero =>
    rcases searchRound_cases (by omega) hfruitless hcalm with ⟨acts, hround, hend⟩ | ⟨-, -, hlt, -⟩
    · exact ⟨0, acts, .done hround, hend⟩
    · omega
  | succ rest ih =>
    rcases searchRound_cases (by omega) hfruitless hcalm with
      ⟨acts, hround, hend⟩ | ⟨hround, heq, -, hfruitless', hcalm'⟩
    · exact ⟨0, acts, .done hround, hend⟩
    · obtain ⟨rounds, acts, hends, hend⟩ := ih (by omega) hfruitless' hcalm'
      rw [heq]
      exact ⟨rounds + 1, acts, .next hround hends, hend⟩

/-- **The loop ends**, with what `search` computes. -/
theorem searchLoop_ends (good : UInt64 → Bool) (interruption : Nat → Option SealError)
    (start : UInt64) :
    ∃ rounds acts,
      EndsIn (searchRound good interruption) rounds ⟨start, 0, []⟩
        (acts, search good interruption searchLimit 0 start) ∧
      SearchEnd good interruption start acts (search good interruption searchLimit 0 start) := by
  have hall : 0 + (searchLimit - 1 + 1) = searchLimit := by decide
  have hends := searchFrom_ends good interruption start hall
    (fun j hj => absurd hj (Nat.not_lt_zero j)) (fun poll hlt => absurd hlt (Nat.not_lt_zero _))
  rwa [searchFrom, Nat.sub_zero, nonceAt_zero, placeAt_zero] at hends

namespace SearchEnd

variable {acts : List SearchAct} {result : Except SealError UInt64}

theorem scheduled (h : SearchEnd good interruption start acts result) :
    [.poll 0] <+: acts ∧ acts <+: schedule start searchLimit := by
  cases h with
  | found hk _ _ _ => exact ⟨schedule_starts_with_poll (Nat.succ_pos _), schedule_mono start hk⟩
  | @stopped poll _ hlt _ _ _ =>
    refine ⟨?_, schedule_covers_poll hlt⟩
    rcases Nat.eq_zero_or_pos poll with rfl | hpos
    · exact List.prefix_append _ _
    · have hearlier : 0 < poll * pollInterval := Nat.mul_pos hpos (by decide)
      exact (schedule_starts_with_poll hearlier).trans (List.prefix_append _ _)
  | exhausted _ _ => exact ⟨schedule_starts_with_poll (by decide), List.prefix_rfl⟩

/-- A search ends at the first poll that sees a reason to stop. -/
theorem of_seen {poll : Nat} {e : SealError} (h : SearchEnd good interruption start acts result)
    (hpoll : .poll poll ∈ acts) (hseen : interruption poll = some e) :
    result = .error e ∧ acts = schedule start (poll * pollInterval) ++ [.poll poll] := by
  have hnot : ∀ {k}, Calm interruption k → .poll poll ∉ schedule start k := by
    intro k hcalm hmem
    rw [hcalm poll (poll_mem_schedule_iff.1 hmem)] at hseen
    cases hseen
  cases h with
  | found _ _ _ hcalm => exact absurd hpoll (hnot hcalm)
  | stopped _ hlast _ hcalm =>
    rcases List.mem_append.1 hpoll with hmem | hmem
    · exact absurd hmem (hnot hcalm)
    · rw [List.mem_singleton, SearchAct.poll.injEq] at hmem
      subst hmem
      rw [hlast] at hseen
      cases hseen
      exact ⟨rfl, rfl⟩
  | exhausted _ hcalm => exact absurd hpoll (hnot hcalm)

/-- A search that is never told to stop ends at the first good nonce, if there is one. -/
theorem of_calm (h : SearchEnd good interruption start acts result)
    (hcalm : ∀ poll, interruption poll = none)
    (hgood : ∃ k < searchLimit, good (nonceAt start k) = true) :
    ∃ k < searchLimit, good (nonceAt start k) = true ∧ Fruitless good start k ∧
      acts = schedule start (k + 1) ∧ result = .ok (nonceAt start k) := by
  cases h with
  | found hk hfound hfruitless _ => exact ⟨_, hk, hfound, hfruitless, rfl, rfl⟩
  | stopped _ hseen _ _ =>
    rw [hcalm] at hseen
    cases hseen
  | exhausted hfruitless _ =>
    obtain ⟨k, hk, hfound⟩ := hgood
    rw [hfruitless k hk] at hfound
    cases hfound

end SearchEnd

/-! ### Seals -/

variable [Crypto] {rule : WorkRule} {t : HeaderTemplate} {parent : Header} {resulting : Digest}
  {ctx : SealContext}

theorem produce_eq (hplace : Sealing.checkPlacement t parent = .ok ()) :
    rule.produce t parent resulting ctx =
      (search (isGood (t.commitment .work resulting) (rule.targetDifficulty ctx.workDifficulty))
        ctx.interruption searchLimit 0 ctx.nonceStart).map fun nonce =>
          ⟨.work, Wire.encode (WorkProof.mk (rule.targetDifficulty ctx.workDifficulty) nonce)⟩ := by
  simp only [produce, Bind.bind, Except.bind, hplace]
  cases search (isGood (t.commitment .work resulting) (rule.targetDifficulty ctx.workDifficulty))
    ctx.interruption searchLimit 0 ctx.nonceStart with
  | error e => rfl
  | ok nonce => rfl

/-- **Sealing by work finds the first good nonce.**  For a template on its parent, with the
difficulty that was requested or the minimum if that is higher:

* The loop ends, in one of the three ways that there are, and a seal is made of the nonce that it
  found.
* It polls before the first nonce and then before every `pollInterval`-th one.
* If no poll could see a reason to stop and there is a good nonce among those that would be tried,
  it finds the first of them, and has tried those up to it.
* A poll that sees that the attempt was cancelled is its last act, and so is one that sees that time
  ran out; if both are the case, the attempt is cancelled. -/
theorem seals_with_first_good (rule : WorkRule) (t : HeaderTemplate) (parent : Header)
    (resulting : Digest) (ctx : SealContext) (hparent : t.parent = parent.id)
    (hheight : t.height.toNat = parent.height.toNat + 1) :
    let difficulty := rule.targetDifficulty ctx.workDifficulty
    let good := isGood (t.commitment .work resulting) difficulty
    let result := rule.produce t parent resulting ctx
    difficulty.toNat = max rule.minDifficulty.toNat (ctx.workDifficulty.getD 0).toNat ∧
    ∃ rounds acts found,
      EndsIn (searchRound good ctx.interruption) rounds ⟨ctx.nonceStart, 0, []⟩ (acts, found) ∧
      SearchEnd good ctx.interruption ctx.nonceStart acts found ∧
      result = found.map (fun nonce => ⟨.work, Wire.encode (WorkProof.mk difficulty nonce)⟩) ∧
      ([.poll 0] <+: acts ∧ acts <+: schedule ctx.nonceStart searchLimit) ∧
      ((∀ poll, ctx.cancelled poll = false ∧ ctx.expired poll = false) →
        (∃ k < searchLimit, good (nonceAt ctx.nonceStart k) = true) →
        ∃ k < searchLimit, good (nonceAt ctx.nonceStart k) = true ∧
          (∀ j < k, good (nonceAt ctx.nonceStart j) = false) ∧
          acts = schedule ctx.nonceStart (k + 1) ∧
          result = .ok ⟨.work, Wire.encode (WorkProof.mk difficulty (nonceAt ctx.nonceStart k))⟩) ∧
      ∀ poll, .poll poll ∈ acts →
        (ctx.cancelled poll = true → result = .error .sealCancelled) ∧
        (ctx.cancelled poll = false → ctx.expired poll = true → result = .error .sealTimeout) ∧
        (ctx.cancelled poll = true ∨ ctx.expired poll = true →
          acts = schedule ctx.nonceStart (poll * pollInterval) ++ [.poll poll]) := by
  intro difficulty good result
  obtain ⟨rounds, acts, hends, hend⟩ := searchLoop_ends good ctx.interruption ctx.nonceStart
  have hresult : result = _ :=
    produce_eq (Sealing.checkPlacement_eq_ok_iff.2 ⟨hparent, hheight⟩)
  refine ⟨toNat_targetDifficulty rule ctx.workDifficulty, rounds, acts, _, hends, hend, hresult,
    hend.scheduled, fun hcalm hgood => ?_, fun poll hpoll => ?_⟩
  · have hnone : ∀ poll, ctx.interruption poll = none := fun poll => by
      simp [SealContext.interruption, hcalm poll]
    obtain ⟨k, hk, hfound, hfruitless, hacts, heq⟩ := hend.of_calm hnone hgood
    refine ⟨k, hk, hfound, hfruitless, hacts, ?_⟩
    rw [hresult, heq]
    rfl
  · -- what the poll sees is what the attempt ends with
    have hlast : ∀ {e}, ctx.interruption poll = some e → result = .error e ∧
        acts = schedule ctx.nonceStart (poll * pollInterval) ++ [.poll poll] := by
      intro e hseen
      obtain ⟨herror, hacts⟩ := hend.of_seen hpoll hseen
      rw [hresult, herror]
      exact ⟨rfl, hacts⟩
    have hcancelled : ctx.cancelled poll = true → ctx.interruption poll = some .sealCancelled :=
      fun hcancelled => by simp [SealContext.interruption, hcancelled]
    have hexpired : ctx.cancelled poll = false → ctx.expired poll = true →
        ctx.interruption poll = some .sealTimeout :=
      fun hnot hexpired => by simp [SealContext.interruption, hnot, hexpired]
    refine ⟨fun h => (hlast (hcancelled h)).1, fun hnot h => (hlast (hexpired hnot h)).1,
      fun hstop => ?_⟩
    cases h : ctx.cancelled poll with
    | true => exact (hlast (hcancelled h)).2
    | false =>
      rw [h] at hstop
      exact (hlast (hexpired h (hstop.resolve_left Bool.false_ne_true))).2

omit [Crypto] in
/-- A search that begins two before the end finds nonce zero, the third that it tries.  One that is
cancelled and has run out of time is cancelled. -/
theorem seals_with_first_good_wrapped :
    letI := Crypto.mirrored
    letI parent := sampleHeader 3
    letI t := sampleTemplate parent
    letI rule : WorkRule := ⟨2⟩
    t.parent = parent.id ∧ t.height.toNat = parent.height.toNat + 1 ∧
      rule.produce t parent (.zero 32) { workDifficulty := some 5, nonceStart := 0 - 2 } =
        .ok ⟨.work, Wire.encode (WorkProof.mk 5 0)⟩ ∧
      rule.produce t parent (.zero 32) { cancelled := fun _ => true, expired := fun _ => true } =
        .error .sealCancelled := by
  let _ := Crypto.mirrored
  let good := isGood ((sampleTemplate (sampleHeader 3)).commitment .work (.zero 32)) 5
  have hbad : ∀ j < 2, good (nonceAt (0 - 2) j) = false := by decide +kernel
  have hgood : good (nonceAt (0 - 2) 2) = true := by decide +kernel
  refine ⟨rfl, rfl, ?_, ?_⟩
  · obtain ⟨-, _, _, _, -, -, -, -, hfirst, -⟩ := seals_with_first_good ⟨2⟩
      (sampleTemplate (sampleHeader 3)) (sampleHeader 3) (.zero 32)
      { workDifficulty := some 5, nonceStart := 0 - 2 } rfl rfl
    obtain ⟨k, -, hk, hbefore, -, hresult⟩ :=
      hfirst (fun _ => ⟨rfl, rfl⟩) ⟨2, by decide, hgood⟩
    have htwo : k = 2 := by
      rcases Nat.lt_trichotomy k 2 with hlt | heq | hgt
      · exact absurd (hk.symm.trans (hbad k hlt)) (by decide)
      · exact heq
      · exact absurd (hgood.symm.trans (hbefore 2 hgt)) (by decide)
    rw [htwo] at hresult
    exact hresult
  · obtain ⟨-, _, acts, _, -, -, -, ⟨hfirst, -⟩, -, hstop⟩ := seals_with_first_good ⟨2⟩
      (sampleTemplate (sampleHeader 3)) (sampleHeader 3) (.zero 32)
      { cancelled := fun _ => true, expired := fun _ => true } rfl rfl
    exact (hstop 0 (hfirst.subset List.mem_cons_self)).1 rfl

end WorkRule

end LedgerChain
