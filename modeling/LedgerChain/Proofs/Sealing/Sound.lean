import LedgerChain.Proofs.Wire.Formats
import LedgerChain.Sums

/-!
# Seals that are made are accepted

A sealing rule accepts every seal that it makes itself, at the place and for the state digest it was
made for (`Engine.validate_complete`), and gives the sealed header a weight of at least one
(`Engine.weight_complete`).  So does every header whose seal it accepts
(`Engine.weight_of_validate`).

For signatures this needs that a signature verifies under the public key of the key that made it
(`Crypto.SignaturesVerify`), and that the position of an authority fits the 32 bits that a seal has
for it.

What it takes to make a seal, and to have it accepted, is said once for each rule:

* `WorkRule.produce_ok_cases`, `WorkRule.validate_eq_ok_iff` : for seals by work.
* `AuthorityRule.produce_eq_ok_iff`, `AuthorityRule.validate_eq_ok_iff` : for seals by authorities.
-/

namespace LedgerChain

/-- Signatures verify under the public key of the secret key that made them. -/
def Crypto.SignaturesVerify [Crypto] : Prop :=
  ∀ secret key digest signature, Crypto.publicKey secret = some key →
    Crypto.sign secret digest = some signature → Crypto.verify signature digest key = true

namespace Sealing

theorem readProof_encode {α : Type} [Wire α] {fits : α → Prop} {proof : α}
    (h : Wire.Canonical α fits) (hfits : fits proof) (kind : SealKind) :
    (readProof ⟨kind, Wire.encode proof⟩ : Except SealError α) = .ok proof := by
  rw [readProof, h.decode_encode hfits]

variable [Crypto] {t : HeaderTemplate} {h parent : Header} {kind : SealKind}

theorem checkPlacement_eq_ok_iff :
    checkPlacement t parent = .ok () ↔
      t.parent = parent.id ∧ t.height.toNat = parent.height.toNat + 1 := by
  unfold checkPlacement
  split
  · rename_i hne
    exact ⟨fun h => (by cases h), fun h => absurd h.1 hne⟩
  · rename_i heq
    split
    · rename_i hne
      exact ⟨fun h => (by cases h), fun h => absurd h.2 hne⟩
    · rename_i hheight
      exact ⟨fun _ => ⟨Decidable.of_not_not heq, Decidable.of_not_not hheight⟩, fun _ => rfl⟩

/-- In 64 bits the same is asked for, below the greatest height. -/
theorem checkPlacement_eq_ok_iff_add :
    checkPlacement t parent = .ok () ↔
      t.parent = parent.id ∧ t.height = parent.height + 1 ∧ parent.height.toNat < UInt64.size - 1 := by
  rw [checkPlacement_eq_ok_iff, height_eq_succ_iff]

theorem checkHeader_eq_ok_iff :
    checkHeader kind h parent = .ok () ↔
      h.sealedBy.kind = kind ∧ checkPlacement h.toHeaderTemplate parent = .ok () := by
  unfold checkHeader
  split
  · rename_i hne
    exact ⟨fun h => (by cases h), fun h => absurd h.1 hne⟩
  · rename_i heq
    exact ⟨fun h => ⟨Decidable.of_not_not heq, h⟩, And.right⟩

end Sealing

/-! ### Work -/

namespace WorkRule

variable [Crypto] {rule : WorkRule} {t : HeaderTemplate} {h parent : Header} {resulting : Digest}
  {ctx : SealContext} {mark : Seal}

omit [Crypto] in
theorem minDifficulty_ofMinimum_ne_zero (minimum : UInt64) :
    (ofMinimum minimum).minDifficulty ≠ 0 := by
  unfold ofMinimum
  split
  · decide
  · assumption

omit [Crypto] in
theorem not_targetDifficulty_lt (rule : WorkRule) (requested : Option UInt64) :
    ¬ rule.targetDifficulty requested < rule.minDifficulty := by
  simp only [targetDifficulty]
  split
  · exact UInt64.lt_irrefl _
  · assumption

omit [Crypto] in
theorem good_of_search {good : UInt64 → Bool} {interruption : Nat → Option SealError}
    {left tried : Nat} {nonce found : UInt64}
    (h : search good interruption left tried nonce = .ok found) : good found = true := by
  induction left generalizing tried nonce with
  | zero => cases h
  | succ left ih =>
    rw [search] at h
    split at h
    · cases h
    · split at h
      · rename_i hgood
        cases h
        exact hgood
      · exact ih h

theorem produce_ok_cases (h : rule.produce t parent resulting ctx = .ok mark) :
    Sealing.checkPlacement t parent = .ok () ∧
      ∃ nonce,
        isGood (t.commitment .work resulting) (rule.targetDifficulty ctx.workDifficulty) nonce
          = true ∧
        mark =
          ⟨.work, Wire.encode (WorkProof.mk (rule.targetDifficulty ctx.workDifficulty) nonce)⟩ := by
  simp only [produce, Bind.bind, Except.bind] at h
  split at h
  · cases h
  · rename_i hplace
    split at h
    · cases h
    · rename_i nonce hsearch
      cases h
      exact ⟨hplace, nonce, good_of_search hsearch, rfl⟩

theorem validate_eq_ok_iff :
    rule.validate h parent resulting = .ok () ↔
      Sealing.checkHeader .work h parent = .ok () ∧
        ∃ proof : WorkProof, Sealing.readProof h.sealedBy = .ok proof ∧
          ¬ proof.difficulty < rule.minDifficulty ∧
          isGood (h.commitment .work resulting) proof.difficulty proof.nonce = true := by
  simp only [validate, Bind.bind, Except.bind]
  constructor
  · intro hv
    split at hv
    · cases hv
    · rename_i hhead
      split at hv
      · cases hv
      · rename_i proof hproof
        split at hv
        · cases hv
        · rename_i hle
          split at hv
          · rename_i hgood
            exact ⟨hhead, proof, hproof, hle, hgood⟩
          · cases hv
  · rintro ⟨hhead, proof, hproof, hle, hgood⟩
    simp only [hhead, hproof, if_neg hle, if_pos hgood]

theorem validate_complete (h : rule.produce t parent resulting ctx = .ok mark) :
    rule.validate (t.complete mark) parent resulting = .ok () := by
  obtain ⟨hplace, nonce, hgood, rfl⟩ := produce_ok_cases h
  exact validate_eq_ok_iff.2 ⟨Sealing.checkHeader_eq_ok_iff.2 ⟨rfl, hplace⟩, _,
    Sealing.readProof_encode canonical_workProof trivial .work, not_targetDifficulty_lt _ _, hgood⟩

omit [Crypto] in
theorem weight_eq {proof : WorkProof} (hproof : Sealing.readProof h.sealedBy = .ok proof) :
    weight h = .ok proof.difficulty.toNat := by
  simp only [weight, hproof, Bind.bind, Except.bind, Pure.pure, Except.pure]

theorem minDifficulty_le_weight (hv : rule.validate h parent resulting = .ok ()) :
    ∃ w, weight h = .ok w ∧ rule.minDifficulty.toNat ≤ w := by
  obtain ⟨-, proof, hproof, hle, -⟩ := validate_eq_ok_iff.1 hv
  rw [UInt64.lt_iff_toNat_lt, Nat.not_lt] at hle
  exact ⟨_, weight_eq hproof, hle⟩

theorem weight_of_validate (hpos : rule.minDifficulty ≠ 0)
    (hv : rule.validate h parent resulting = .ok ()) : ∃ w, weight h = .ok w ∧ 1 ≤ w := by
  obtain ⟨w, hw, hle⟩ := minDifficulty_le_weight hv
  have hmin : rule.minDifficulty.toNat ≠ 0 := fun h0 => hpos (UInt64.toNat_inj.1 h0)
  exact ⟨w, hw, by omega⟩

end WorkRule

/-! ### Authorities -/

namespace AuthorityRule

variable [Crypto] {rule : AuthorityRule} {t : HeaderTemplate} {h parent : Header}
  {resulting : Digest} {ctx : SealContext} {mark : Seal}

omit [Crypto] in
theorem getElem?_of_findIdx? {keys : List PublicKey} {key : PublicKey} {index : Nat}
    (h : keys.findIdx? (· = key) = some index) : keys[index]? = some key := by
  obtain ⟨hlt, hat, -⟩ := List.findIdx?_eq_some_iff_getElem.1 h
  rw [List.getElem?_eq_getElem hlt, of_decide_eq_true hat]

theorem produce_eq_ok_iff :
    rule.produce t parent resulting ctx = .ok mark ↔
      Sealing.checkPlacement t parent = .ok () ∧ ctx.interruption 0 = none ∧
        ∃ secret key index signature, ctx.authoringKey = some secret ∧
          Crypto.publicKey secret = some key ∧
          rule.authorities.findIdx? (· = key) = some index ∧
          rule.expectedInstead? t.height.toNat index = none ∧
          Crypto.sign secret (t.commitment .authority resulting) = some signature ∧
          mark = ⟨.authority, Wire.encode (AuthorityProof.mk (UInt32.ofNat index) signature)⟩ := by
  simp only [produce, Bind.bind, Except.bind]
  constructor
  -- the checks in their order
  · intro h
    split at h
    · cases h
    · rename_i hplace
      split at h
      · cases h
      · rename_i hcalm
        refine ⟨hplace, hcalm, ?_⟩
        split at h
        · cases h
        · rename_i secret hsecret
          split at h
          · cases h
          · rename_i key hkey
            split at h
            · cases h
            · rename_i index hindex
              split at h
              · cases h
              · rename_i hturn
                split at h
                · cases h
                · rename_i signature hsign
                  cases h
                  exact ⟨secret, key, index, signature, hsecret, hkey, hindex, hturn, hsign, rfl⟩
  · rintro ⟨hplace, hcalm, secret, key, index, signature, hsecret, hkey, hindex, hturn, hsign, rfl⟩
    simp only [hplace, hcalm, hsecret, hkey, hindex, hturn, hsign]

theorem validate_eq_ok_iff :
    rule.validate h parent resulting = .ok () ↔
      Sealing.checkHeader .authority h parent = .ok () ∧
        ∃ (proof : AuthorityProof) (key : PublicKey), Sealing.readProof h.sealedBy = .ok proof ∧
          rule.authorities[proof.index.toNat]? = some key ∧
          rule.expectedInstead? h.height.toNat proof.index.toNat = none ∧
          Crypto.verify proof.signature (h.commitment .authority resulting) key = true := by
  simp only [validate, Bind.bind, Except.bind]
  constructor
  · intro hv
    split at hv
    · cases hv
    · rename_i hhead
      split at hv
      · cases hv
      · rename_i proof hproof
        split at hv
        · cases hv
        · rename_i key hkey
          split at hv
          · cases hv
          · rename_i hturn
            split at hv
            · rename_i hgood
              exact ⟨hhead, proof, key, hproof, hkey, hturn, hgood⟩
            · cases hv
  · rintro ⟨hhead, proof, key, hproof, hkey, hturn, hgood⟩
    simp only [hhead, hproof, hkey, hturn, if_pos hgood]

/-- The signature of an authority whose turn it is, if there are turns, is accepted at any position
of the authority. -/
theorem validate_signed (hverify : Crypto.SignaturesVerify)
    (hsize : rule.authorities.length ≤ UInt32.size) {secret : SecretKey} {key : PublicKey}
    {index : Nat} {signature : Signature} (hplace : Sealing.checkPlacement t parent = .ok ())
    (hkey : Crypto.publicKey secret = some key) (hindex : rule.authorities[index]? = some key)
    (hturn : rule.expectedInstead? t.height.toNat index = none)
    (hsign : Crypto.sign secret (t.commitment .authority resulting) = some signature) :
    rule.validate (t.complete
      ⟨.authority, Wire.encode (AuthorityProof.mk (UInt32.ofNat index) signature)⟩) parent resulting
      = .ok () := by
  have hlt : index < rule.authorities.length := (List.getElem?_eq_some_iff.1 hindex).1
  have hfit : (UInt32.ofNat index).toNat = index := by
    rw [UInt32.toNat_ofNat']
    exact Nat.mod_eq_of_lt (Nat.lt_of_lt_of_le hlt hsize)
  refine validate_eq_ok_iff.2 ⟨Sealing.checkHeader_eq_ok_iff.2 ⟨rfl, hplace⟩, _, key,
    Sealing.readProof_encode canonical_authorityProof trivial .authority, ?_, ?_, ?_⟩
  · exact (congrArg (rule.authorities[·]?) hfit).trans hindex
  · exact (congrArg (rule.expectedInstead? _) hfit).trans hturn
  · exact hverify secret key _ signature hkey hsign

theorem validate_complete (hverify : Crypto.SignaturesVerify)
    (hsize : rule.authorities.length ≤ UInt32.size)
    (h : rule.produce t parent resulting ctx = .ok mark) :
    rule.validate (t.complete mark) parent resulting = .ok () := by
  obtain ⟨hplace, -, secret, key, index, signature, -, hkey, hindex, hturn, hsign, rfl⟩ :=
    produce_eq_ok_iff.1 h
  exact validate_signed hverify hsize hplace hkey (getElem?_of_findIdx? hindex) hturn hsign

end AuthorityRule

/-! ### Both rules -/

/-- The position of every authority of a sealing rule fits the 32 bits that a seal has for it. -/
def SealRule.PositionsFit : SealRule → Prop
  | .work _ => True
  | .authority authorities _ => authorities.length ≤ UInt32.size

namespace Engine

variable [Crypto] {rule : SealRule} {t : HeaderTemplate} {h parent : Header} {resulting : Digest}
  {ctx : SealContext} {mark : Seal}

/-- **A seal that was made is accepted** where it was made for. -/
theorem validate_complete (hverify : Crypto.SignaturesVerify) (hfit : rule.PositionsFit)
    (h : (ofRule rule).produce t parent resulting ctx = .ok mark) :
    (ofRule rule).validate (t.complete mark) parent resulting = .ok () := by
  cases rule with
  | work minimum => exact WorkRule.validate_complete h
  | authority authorities roundRobin => exact AuthorityRule.validate_complete hverify hfit h

theorem checkPlacement_of_produce (h : (ofRule rule).produce t parent resulting ctx = .ok mark) :
    Sealing.checkPlacement t parent = .ok () := by
  cases rule with
  | work minimum => exact (WorkRule.produce_ok_cases h).1
  | authority authorities roundRobin => exact (AuthorityRule.produce_eq_ok_iff.1 h).1

theorem checkPlacement_of_validate (hv : (ofRule rule).validate h parent resulting = .ok ()) :
    Sealing.checkPlacement h.toHeaderTemplate parent = .ok () := by
  cases rule with
  | work minimum =>
    exact (Sealing.checkHeader_eq_ok_iff.1 (WorkRule.validate_eq_ok_iff.1 hv).1).2
  | authority authorities roundRobin =>
    exact (Sealing.checkHeader_eq_ok_iff.1 (AuthorityRule.validate_eq_ok_iff.1 hv).1).2

theorem weight_complete (h : (ofRule rule).produce t parent resulting ctx = .ok mark) :
    ∃ w, (ofRule rule).weight (t.complete mark) = .ok w ∧ 1 ≤ w := by
  cases rule with
  | work minimum =>
    exact WorkRule.weight_of_validate (WorkRule.minDifficulty_ofMinimum_ne_zero minimum)
      (WorkRule.validate_complete h)
  | authority authorities roundRobin => exact ⟨1, rfl, Nat.le_refl 1⟩

theorem weight_of_validate (hv : (ofRule rule).validate h parent resulting = .ok ()) :
    ∃ w, (ofRule rule).weight h = .ok w ∧ 1 ≤ w := by
  cases rule with
  | work minimum =>
    exact WorkRule.weight_of_validate (WorkRule.minDifficulty_ofMinimum_ne_zero minimum) hv
  | authority authorities roundRobin => exact ⟨1, rfl, Nat.le_refl 1⟩

end Engine

end LedgerChain
