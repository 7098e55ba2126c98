import LedgerChain.Genesis
import LedgerChain.Proofs.Crypto.Transparent
import LedgerChain.Proofs.Validation
import Mathlib.Data.Set.Function

/-!
# Identifiers and commitments bind what they name

A hash function that tells apart some byte strings tells apart the values whose forms these are,
since every format is canonical (`hashOf_inj`).  So the identifier of a header or an extrinsic, the
digest of a list of extrinsics and the commitment of a seal each determine what they were made from.

The header names its extrinsics by their digest, which validation recomputes.  So at most one body is
accepted for each identifier (`eq_of_validateBlock`), and another body for the header of a valid block
is told from the digest, which is no verdict on the header (`validateBlock_of_other_body`).
-/

namespace LedgerChain

open Wire

variable [Crypto] {all : Set Bytes}

/-- **Values with the same hash are equal**, if the hash function tells their forms apart. -/
theorem hashOf_inj {α : Type} [Wire α] {fits : α → Prop} {a a' : α} (h : Canonical α fits)
    (hinj : Set.InjOn Crypto.hash all) (ha : fits a) (ha' : fits a') (hmem : encode a ∈ all)
    (hmem' : encode a' ∈ all) (heq : hashOf a = hashOf a') : a = a' :=
  h.write_inj ha ha' (hinj hmem hmem' heq)

theorem extrinsicsDigest_inj {xs xs' : List Extrinsic} (hinj : Set.InjOn Crypto.hash all)
    (hxs : ListFits Extrinsic.Fits xs) (hxs' : ListFits Extrinsic.Fits xs')
    (hmem : encodeList xs ∈ all) (hmem' : encodeList xs' ∈ all)
    (heq : extrinsicsDigest xs = extrinsicsDigest xs') : xs = xs' :=
  (reads_decodeList canonical_extrinsic).write_inj hxs hxs' (hinj hmem hmem' heq)

namespace HeaderTemplate

variable {t t' : HeaderTemplate} {kind kind' : SealKind} {resulting resulting' : Digest}

omit [Crypto] in
/-- All parts of what a seal commits to have fixed lengths. -/
theorem commitmentBytes_inj
    (h : t.commitmentBytes kind resulting = t'.commitmentBytes kind' resulting') :
    t.version = t'.version ∧ kind = kind' ∧ t.parent = t'.parent ∧ t.height = t'.height ∧
      t.extrinsicsDigest = t'.extrinsicsDigest ∧ resulting = resulting' := by
  simp only [commitmentBytes, List.append_assoc] at h
  obtain ⟨hversion, h⟩ := canonical_uInt16.append_inj trivial trivial h
  obtain ⟨hkind, h⟩ := canonical_sealKind.append_inj trivial trivial h
  obtain ⟨hparent, h⟩ := canonical_blockId.append_inj trivial trivial h
  obtain ⟨hheight, h⟩ := canonical_uInt64.append_inj trivial trivial h
  obtain ⟨hextrinsics, h⟩ := (canonical_buffer 32).append_inj trivial trivial h
  exact ⟨hversion, hkind, hparent, hheight, hextrinsics,
    (canonical_buffer 32).write_inj trivial trivial h⟩

end HeaderTemplate

/-! ### One body for each identifier -/

section

variable {engine : Engine} {parent tip tip' : ChainTip} {b b' : Block} {xs : List Extrinsic}

/-- What is hashed for the identifier of a block and to compare its body with its header. -/
def Block.hashed (b : Block) : List Bytes := [Wire.encode b.header, encodeList b.extrinsics]

/-- **At most one block is accepted for each identifier**, and it is accepted in one way. -/
theorem eq_of_validateBlock (hinj : Set.InjOn Crypto.hash all) (hb : b.Fits) (hb' : b'.Fits)
    (hmem : ∀ bs ∈ b.hashed, bs ∈ all) (hmem' : ∀ bs ∈ b'.hashed, bs ∈ all) (hid : b.id = b'.id)
    (h : validateBlock engine b parent = .ok tip) (h' : validateBlock engine b' parent = .ok tip') :
    b = b' ∧ tip = tip' := by
  simp only [Block.hashed, List.forall_mem_cons] at hmem hmem'
  obtain ⟨-, -, -, hbody, -⟩ := validateBlock_eq_ok_iff.1 h
  obtain ⟨-, -, -, hbody', -⟩ := validateBlock_eq_ok_iff.1 h'
  have hheader : b.header = b'.header :=
    hashOf_inj canonical_header hinj hb.header hb'.header hmem.1 hmem'.1 (congrArg BlockId.digest hid)
  have hextrinsics : b.extrinsics = b'.extrinsics :=
    extrinsicsDigest_inj hinj hb.extrinsics hb'.extrinsics hmem.2.1 hmem'.2.1
      (hbody.trans (hheader ▸ hbody'.symm))
  have heq : b = b' := by
    rw [Block.mk.injEq]
    exact ⟨hheader, hextrinsics⟩
  rw [← heq, h] at h'
  exact ⟨heq, Except.ok.inj h'⟩

/-- **Another body for the header of a valid block is refused for its digest.** -/
theorem validateBlock_of_other_body (hinj : Set.InjOn Crypto.hash all) (hb : b.Fits)
    (hxs : ListFits Extrinsic.Fits xs) (hmem : encodeList b.extrinsics ∈ all)
    (hmem' : encodeList xs ∈ all) (hne : xs ≠ b.extrinsics)
    (h : validateBlock engine b parent = .ok tip) :
    validateBlock engine ⟨b.header, xs⟩ parent =
      .error (.digestMismatch .extrinsics b.header.extrinsicsDigest (extrinsicsDigest xs)) := by
  obtain ⟨hheight, hseal, hweight, hbody, -⟩ := validateBlock_eq_ok_iff.1 h
  have hdigest : extrinsicsDigest xs ≠ b.header.extrinsicsDigest := fun heq =>
    hne (extrinsicsDigest_inj hinj hxs hb.extrinsics hmem' hmem (heq.trans hbody.symm))
  have hheight' : (Block.mk b.header xs).height = parent.height + 1 := hheight
  simp only [validateBlock, hheight', hseal, hweight, Block.computedExtrinsicsDigest, hdigest, ne_eq,
    not_true_eq_false, not_false_eq_true, if_true, if_false]

end

/-- **Identifiers and commitments bind what they name, and at most one body is accepted for each
identifier.**  The hash function need only tell apart the byte strings that are hashed. -/
theorem digests_bind (hinj : Set.InjOn Crypto.hash all) :
    (∀ h h' : Header, h.Fits → h'.Fits → encode h ∈ all → encode h' ∈ all → h.id = h'.id →
      h = h') ∧
    (∀ x x' : Extrinsic, x.Fits → x'.Fits → encode x ∈ all → encode x' ∈ all → x.id = x'.id →
      x = x') ∧
    (∀ xs xs' : List Extrinsic, ListFits Extrinsic.Fits xs → ListFits Extrinsic.Fits xs' →
      encodeList xs ∈ all → encodeList xs' ∈ all → extrinsicsDigest xs = extrinsicsDigest xs' →
      xs = xs') ∧
    (∀ (t t' : HeaderTemplate) (kind kind' : SealKind) (resulting resulting' : Digest),
      t.commitmentBytes kind resulting ∈ all → t'.commitmentBytes kind' resulting' ∈ all →
      t.commitment kind resulting = t'.commitment kind' resulting' →
      t.version = t'.version ∧ kind = kind' ∧ t.parent = t'.parent ∧ t.height = t'.height ∧
        t.extrinsicsDigest = t'.extrinsicsDigest ∧ resulting = resulting') ∧
    (∀ (t : HeaderTemplate) (mark : Seal) (kind : SealKind) (resulting : Digest),
      (t.complete mark).commitment kind resulting = t.commitment kind resulting) ∧
    (∀ (engine : Engine) (parent tip tip' : ChainTip) (b b' : Block), b.Fits → b'.Fits →
      (∀ bs ∈ b.hashed, bs ∈ all) → (∀ bs ∈ b'.hashed, bs ∈ all) → b.id = b'.id →
      validateBlock engine b parent = .ok tip → validateBlock engine b' parent = .ok tip' →
      b = b' ∧ tip = tip') ∧
    ∀ (engine : Engine) (parent tip : ChainTip) (b : Block) (xs : List Extrinsic), b.Fits →
      ListFits Extrinsic.Fits xs → encodeList b.extrinsics ∈ all → encodeList xs ∈ all →
      xs ≠ b.extrinsics → validateBlock engine b parent = .ok tip →
      ∃ cause, validateBlock engine ⟨b.header, xs⟩ parent = .error cause ∧
        cause = .digestMismatch .extrinsics b.header.extrinsicsDigest (extrinsicsDigest xs) ∧
        cause.isBlockInvalid = false := by
  refine ⟨fun h h' hfits hfits' hmem hmem' hid => ?_, fun x x' hfits hfits' hmem hmem' hid => ?_,
    fun xs xs' => extrinsicsDigest_inj hinj, fun t t' kind kind' r r' hmem hmem' heq => ?_,
    fun _ _ _ _ => rfl, fun engine parent tip tip' b b' => eq_of_validateBlock hinj,
    fun engine parent tip b xs hb hxs hmem hmem' hne hvalid => ?_⟩
  · exact hashOf_inj canonical_header hinj hfits hfits' hmem hmem' (congrArg BlockId.digest hid)
  · exact hashOf_inj canonical_extrinsic hinj hfits hfits' hmem hmem'
      (congrArg ExtrinsicId.digest hid)
  · exact HeaderTemplate.commitmentBytes_inj (hinj hmem hmem' heq)
  · exact ⟨_, validateBlock_of_other_body hinj hb hxs hmem hmem' hne hvalid, rfl, rfl⟩

omit [Crypto] in
/-- A block with one extrinsic on a genesis block: under another seal it has another identifier, and
without its extrinsic it is refused. -/
theorem digests_bind_one_extrinsic :
    letI := Crypto.transparent
    let parent := Genesis.tip { consensus := ⟨.work 1, 16, 1024⟩ } {}
    ∃ tip, (Candidate.prepare parent [.ofCall (.set [1] [2]) 0]).1.complete (.ofRule (.work 1)) parent
        {} = .ok tip ∧
      validateBlock (.ofRule (.work 1)) tip.block parent = .ok tip ∧
      (tip.header.toHeaderTemplate.complete ⟨.work, [7]⟩).id ≠ tip.id ∧
      validateBlock (.ofRule (.work 1)) ⟨tip.header, []⟩ parent =
        .error (.digestMismatch .extrinsics tip.header.extrinsicsDigest (extrinsicsDigest [])) := by
  let _ := Crypto.transparent
  let parent := Genesis.tip { consensus := ⟨.work 1, 16, 1024⟩ } {}
  let made := (Candidate.prepare parent [.ofCall (.set [1] [2]) 0]).1.complete (.ofRule (.work 1))
    parent {}
  have hmade : made.toOption.map (fun tip => decide (
      validateBlock (.ofRule (.work 1)) tip.block parent = .ok tip ∧ tip.block.Fits ∧
      tip.header.sealedBy ≠ ⟨.work, [7]⟩ ∧ tip.block.extrinsics ≠ [] ∧
      let forms := [encode tip.header,
        encode (tip.header.toHeaderTemplate.complete ⟨.work, [7]⟩),
        encodeList tip.block.extrinsics, encodeList ([] : List Extrinsic)]
      ∀ a ∈ forms, ∀ b ∈ forms, Crypto.hash a = Crypto.hash b → a = b)) = some true := by
    decide +kernel
  obtain ⟨tip, htip, hall⟩ := Option.map_eq_some_iff.1 hmade
  obtain ⟨hvalid, hfits, hseal, hbody, hinj⟩ := of_decide_eq_true hall
  have hinj' : Set.InjOn Crypto.hash {bs | bs ∈ [encode tip.header,
      encode (tip.header.toHeaderTemplate.complete ⟨.work, [7]⟩),
      encodeList tip.block.extrinsics, encodeList ([] : List Extrinsic)]} :=
    fun a ha b hb => hinj a ha b hb
  obtain ⟨hheaders, -, -, -, -, -, hbodies⟩ := digests_bind hinj'
  refine ⟨tip, toOption_eq_some_iff.1 htip, hvalid, fun hid => ?_, ?_⟩
  · have hseven : (tip.header.toHeaderTemplate.complete ⟨.work, [7]⟩).Fits :=
      show ([7] : Bytes).length < lengthLimit by decide
    have heq := hheaders _ _ hseven hfits.header (.tail _ (.head _)) (.head _) hid
    exact hseal (congrArg Header.sealedBy heq).symm
  · obtain ⟨cause, hcause, rfl, -⟩ := hbodies _ _ _ _ [] hfits (by decide)
      (.tail _ (.tail _ (.head _))) (.tail _ (.tail _ (.tail _ (.head _)))) hbody.symm hvalid
    exact hcause

end LedgerChain
