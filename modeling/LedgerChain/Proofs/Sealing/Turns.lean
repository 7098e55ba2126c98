import LedgerChain.Proofs.Crypto.Transparent

/-!
# Turns of authorities

With turns, an authority can seal exactly the heights that its first position in the list stands for.
The list may name an authority at several positions, and a seal is accepted at each of them when its
turn comes.  But an authority that seals looks itself up, and finds its first position only
(`AuthorityRule.findIdx?_eq_some_iff`).  So an authority that no earlier position names is never locked
out of its turn, and at the later turns of one that is named again nobody can seal
(`AuthorityRule.seals_in_turn`).  Without turns, all authorities can seal at all heights.

A secret key that has a public key is assumed to be good for signing too (`Crypto.KeysSign`).
-/

namespace LedgerChain

/-- Secret keys that have a public key can sign. -/
def Crypto.KeysSign [Crypto] : Prop :=
  ∀ secret key digest, Crypto.publicKey secret = some key →
    ∃ signature, Crypto.sign secret digest = some signature

namespace AuthorityRule

variable {rule : AuthorityRule} {key : PublicKey} {height index : Nat}

/-! ### Positions -/

/-- The position whose turn a height is. -/
def turn (rule : AuthorityRule) (height : Nat) : Nat := (height - 1) % rule.authorities.length

theorem expectedInstead?_eq_none_iff (hturns : rule.roundRobin = true)
    (hne : rule.authorities ≠ []) :
    rule.expectedInstead? height index = none ↔ index = rule.turn height := by
  have hexpected : rule.expected? height = some (rule.turn height) := by
    simp [expected?, turn, hturns, hne]
  simp [expectedInstead?, hexpected]

theorem expectedInstead?_of_free (hfree : rule.roundRobin = false) :
    rule.expectedInstead? height index = none := by
  simp [expectedInstead?, expected?, hfree]

/-- **A key is found at a position that it has if and only if it has no earlier one.** -/
theorem findIdx?_eq_some_iff {keys : List PublicKey} (hat : keys[index]? = some key) :
    keys.findIdx? (· = key) = some index ↔ key ∉ keys.take index := by
  obtain ⟨hlt, rfl⟩ := List.getElem?_eq_some_iff.1 hat
  rw [List.findIdx?_eq_some_iff_getElem, List.mem_take_iff_getElem]
  constructor
  · rintro ⟨_, _, hfirst⟩ ⟨j, hj, heq⟩
    exact hfirst j (by omega) (decide_eq_true heq)
  · intro hfirst
    refine ⟨hlt, decide_eq_true rfl, fun j hj heq => hfirst ⟨j, by omega, of_decide_eq_true heq⟩⟩

theorem exists_findIdx? {keys : List PublicKey} (h : key ∈ keys) :
    ∃ index, keys.findIdx? (· = key) = some index := by
  rw [← Option.isSome_iff_exists, List.findIdx?_isSome, List.any_eq_true]
  exact ⟨key, h, decide_eq_true rfl⟩

variable [Crypto] {t : HeaderTemplate} {parent : Header} {resulting : Digest} {ctx : SealContext}
  {secret : SecretKey}

/-! ### Attempts to seal -/

/-- An attempt has a secret key to sign with and is not interrupted. -/
structure Ready (ctx : SealContext) (secret : SecretKey) : Prop where
  key : ctx.authoringKey = some secret
  calm : ctx.interruption 0 = none

/-- A secret key can seal a template: every attempt that is ready makes a seal, which is accepted. -/
def Seals (rule : AuthorityRule) (secret : SecretKey) (t : HeaderTemplate) (parent : Header)
    (resulting : Digest) : Prop :=
  ∀ ctx, Ready ctx secret → ∃ mark, rule.produce t parent resulting ctx = .ok mark ∧
    rule.validate (t.complete mark) parent resulting = .ok ()

theorem seals_of_position (hverify : Crypto.SignaturesVerify) (hsigns : Crypto.KeysSign)
    (hsize : rule.authorities.length ≤ UInt32.size)
    (hplace : Sealing.checkPlacement t parent = .ok ()) (hkey : Crypto.publicKey secret = some key)
    (hindex : rule.authorities.findIdx? (· = key) = some index)
    (hturn : rule.expectedInstead? t.height.toNat index = none) :
    rule.Seals secret t parent resulting := by
  intro ctx hctx
  obtain ⟨signature, hsign⟩ := hsigns secret key (t.commitment .authority resulting) hkey
  have hmade := produce_eq_ok_iff.2 ⟨hplace, hctx.calm, secret, key, index, signature, hctx.key,
    hkey, hindex, hturn, hsign, rfl⟩
  exact ⟨_, hmade, validate_complete hverify hsize hmade⟩

/-- An authority that finds itself at a position whose turn it is not waits. -/
theorem produce_of_other_turn (hplace : Sealing.checkPlacement t parent = .ok ())
    (hctx : Ready ctx secret) (hkey : Crypto.publicKey secret = some key)
    (hindex : rule.authorities.findIdx? (· = key) = some index)
    (hturn : rule.expectedInstead? t.height.toNat index ≠ none) :
    rule.produce t parent resulting ctx = .error (.notOurTurn t.height.toNat) := by
  obtain ⟨expected, hexpected⟩ := Option.ne_none_iff_exists'.1 hturn
  simp only [produce, Bind.bind, Except.bind, hplace, hctx.calm, hctx.key, hkey, hindex, hexpected]

theorem not_mem_take_of_produce {mark : Seal} (hturns : rule.roundRobin = true)
    (hat : rule.authorities[rule.turn t.height.toNat]? = some key)
    (h : rule.produce t parent resulting ctx = .ok mark) :
    key ∉ rule.authorities.take (rule.turn t.height.toNat) := by
  obtain ⟨-, -, secret, found, index, signature, -, -, hindex, hturn, -, -⟩ :=
    produce_eq_ok_iff.1 h
  have hne := List.ne_nil_of_mem (List.mem_of_getElem? hat)
  obtain rfl := (expectedInstead?_eq_none_iff hturns hne).1 hturn
  have hsame : found = key := Option.some.inj ((getElem?_of_findIdx? hindex).symm.trans hat)
  rw [hsame] at hindex
  exact (findIdx?_eq_some_iff hat).1 hindex

/-- What becomes of a turn, which is that of a key at a position in the list. -/
structure TurnOf (rule : AuthorityRule) (secret : SecretKey) (key : PublicKey) (t : HeaderTemplate)
    (parent : Header) (resulting : Digest) : Prop where
  /-- A seal of the authority would be accepted in any case. -/
  acceptable : ∃ mark, rule.validate (t.complete mark) parent resulting = .ok ()
  seals : key ∉ rule.authorities.take (rule.turn t.height.toNat) →
    rule.Seals secret t parent resulting
  /-- The authority believes that it is not its turn. -/
  waits : key ∈ rule.authorities.take (rule.turn t.height.toNat) → ∀ ctx, Ready ctx secret →
    rule.produce t parent resulting ctx = .error (.notOurTurn t.height.toNat)
  /-- Nor can anyone else make a seal. -/
  stuck : key ∈ rule.authorities.take (rule.turn t.height.toNat) → ∀ ctx mark,
    rule.produce t parent resulting ctx ≠ .ok mark

/-- **The authority whose turn it is can seal if and only if no earlier position names it.**
Otherwise nobody can.  Without turns every authority can. -/
theorem seals_in_turn (hverify : Crypto.SignaturesVerify) (hsigns : Crypto.KeysSign)
    (hsize : rule.authorities.length ≤ UInt32.size) (hparent : t.parent = parent.id)
    (hheight : t.height.toNat = parent.height.toNat + 1)
    (hkey : Crypto.publicKey secret = some key) :
    (rule.roundRobin = true → rule.authorities[rule.turn t.height.toNat]? = some key →
      rule.TurnOf secret key t parent resulting) ∧
    (rule.roundRobin = false → key ∈ rule.authorities → rule.Seals secret t parent resulting) := by
  have hplace := Sealing.checkPlacement_eq_ok_iff.2 ⟨hparent, hheight⟩
  constructor
  · intro hturns hat
    have hne := List.ne_nil_of_mem (List.mem_of_getElem? hat)
    have hturn : rule.expectedInstead? t.height.toNat (rule.turn t.height.toNat) = none :=
      (expectedInstead?_eq_none_iff hturns hne).2 rfl
    refine ⟨?_, fun hfirst => ?_, fun hagain ctx hctx => ?_, fun hagain ctx mark hmade =>
      not_mem_take_of_produce hturns hat hmade hagain⟩
    · obtain ⟨signature, hsign⟩ := hsigns secret key (t.commitment .authority resulting) hkey
      exact ⟨_, validate_signed hverify hsize hplace hkey hat hturn hsign⟩
    · exact seals_of_position hverify hsigns hsize hplace hkey
        ((findIdx?_eq_some_iff hat).2 hfirst) hturn
    · obtain ⟨index, hindex⟩ := exists_findIdx? (List.mem_of_getElem? hat)
      refine produce_of_other_turn hplace hctx hkey hindex fun hown => ?_
      obtain rfl := (expectedInstead?_eq_none_iff hturns hne).1 hown
      exact (findIdx?_eq_some_iff hat).1 hindex hagain
  · intro hfree hmem
    obtain ⟨index, hindex⟩ := exists_findIdx? hmem
    exact seals_of_position hverify hsigns hsize hplace hkey hindex
      (expectedInstead?_of_free hfree)

omit [Crypto] in
theorem keysSign_transparent :
    letI := Crypto.transparent
    Crypto.KeysSign :=
  fun _ _ _ _ => ⟨_, rfl⟩

omit [Crypto] in
/-- The last of three authorities seals at height three. -/
theorem seals_in_turn_third :
    letI := Crypto.transparent
    Crypto.SignaturesVerify ∧ Crypto.KeysSign ∧
      AuthorityRule.Seals ⟨[.zero 32, .ofNat 32 1, .ofNat 32 2], true⟩ (.ofNat 32 2)
        (sampleTemplate (sampleHeader 2)) (sampleHeader 2) (.zero 32) := by
  let := Crypto.transparent
  have hturn : AuthorityRule.TurnOf ⟨[.zero 32, .ofNat 32 1, .ofNat 32 2], true⟩ (.ofNat 32 2)
      (.ofNat 32 2) (sampleTemplate (sampleHeader 2)) (sampleHeader 2) (.zero 32) :=
    (seals_in_turn Crypto.signaturesVerify_transparent keysSign_transparent (by decide) rfl
      (by decide) rfl).1 rfl (by decide +kernel)
  exact ⟨Crypto.signaturesVerify_transparent, keysSign_transparent, hturn.seals (by decide +kernel)⟩

omit [Crypto] in
/-- An authority that is named at the first and the last of three positions cannot seal at height
three, which is its turn. -/
theorem third_turn_missed :
    letI := Crypto.transparent
    letI rule : AuthorityRule := ⟨[.zero 32, .ofNat 32 1, .zero 32], true⟩
    letI parent := sampleHeader 2
    letI t := sampleTemplate parent
    Crypto.SignaturesVerify ∧ Crypto.KeysSign ∧ Crypto.publicKey (.zero 32) = some (.zero 32) ∧
      rule.authorities[(t.height.toNat - 1) % rule.authorities.length]? = some (.zero 32) ∧
      t.parent = parent.id ∧ t.height.toNat = parent.height.toNat + 1 ∧
      ¬ rule.Seals (.zero 32) t parent (.zero 32) := by
  let := Crypto.transparent
  refine ⟨Crypto.signaturesVerify_transparent, keysSign_transparent, rfl, by decide +kernel, rfl,
    by decide, fun hseals => ?_⟩
  obtain ⟨mark, hmade, -⟩ := hseals { authoringKey := some (.zero 32) } ⟨rfl, rfl⟩
  have hnone : (produce ⟨[.zero 32, .ofNat 32 1, .zero 32], true⟩
      (sampleTemplate (sampleHeader 2)) (sampleHeader 2) (.zero 32)
      { authoringKey := some (.zero 32) }).toOption = none := by decide +kernel
  rw [hmade] at hnone
  cases hnone

end AuthorityRule

end LedgerChain
