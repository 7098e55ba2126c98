import LedgerChain.Block
import LedgerChain.Proofs.Wire
import LedgerChain.Sealing.Engine

/-!
# The formats of a chain are canonical

Everything that is stored, sent or sealed has exactly one binary form: calls, extrinsics, the proofs
in seals, headers, blocks and batches of writes are read where their form stands and nowhere else.
What fits a format (`Call.Fits`, `Header.Fits`, `Block.Fits` and so on) is what has no byte string
and no list of 2³² elements or more in it.

A block is read together with its version, which is looked at last (`Block.oneForm`).
-/

namespace LedgerChain

open Wire

/-! ### Identifiers and seals -/

theorem canonical_blockId : Canonical BlockId fun _ => True :=
  (canonical_buffer 32).map (g := BlockId.mk) (fun _ _ => rfl) fun _ => rfl

theorem canonical_sealKind : Canonical SealKind fun _ => True := by
  intro input kind rest
  show (decoder >>= fun tag : UInt8 => _) input = _ ↔ _
  rw [tag_eq_ok_iff, true_and]
  constructor
  · rintro ⟨tag, mid, rfl, h⟩
    split at h
    · rename_i htag
      obtain ⟨rfl, rfl⟩ := pure_eq_ok_iff.1 h
      rw [htag]
      rfl
    · split at h
      · rename_i htag
        obtain ⟨rfl, rfl⟩ := pure_eq_ok_iff.1 h
        rw [htag]
        rfl
      · exact absurd h fail_ne_ok
  · rintro rfl
    cases kind with
    | work => exact ⟨0, rest, rfl, rfl⟩
    | authority => exact ⟨1, rest, rfl, rfl⟩

/-- A seal fits if its proof does. -/
def Seal.Fits (mark : Seal) : Prop := mark.proof.length < lengthLimit

instance : DecidablePred Seal.Fits := fun mark => Nat.decLt mark.proof.length lengthLimit

theorem canonical_seal : Canonical Seal Seal.Fits :=
  (canonical_sealKind.record canonical_bytes (fun _ _ => ⟨rfl, rfl⟩) fun _ => rfl).congr_fits
    fun _ => Iff.of_eq (true_and _)

theorem canonical_workProof : Canonical WorkProof fun _ => True :=
  (canonical_uInt64.record canonical_uInt64 (fun _ _ => ⟨rfl, rfl⟩) fun _ => rfl).congr_fits
    fun _ => Iff.of_eq (true_and _)

theorem canonical_authorityProof : Canonical AuthorityProof fun _ => True :=
  (canonical_uInt32.record (canonical_buffer 64) (fun _ _ => ⟨rfl, rfl⟩)
    fun _ => rfl).congr_fits fun _ => Iff.of_eq (true_and _)

/-! ### Headers -/

theorem canonical_headerTemplate : Canonical HeaderTemplate fun _ => True := by
  intro input t rest
  show (do
    let version ← decoder
    let parent ← decoder
    let height ← decoder
    let stateDigest ← decoder
    let extrinsicsDigest ← decoder
    pure (HeaderTemplate.mk version parent height stateDigest extrinsicsDigest)) input = _ ↔ _
  simp only [canonical_uInt16.bind_eq_ok_iff, canonical_blockId.bind_eq_ok_iff,
    canonical_uInt64.bind_eq_ok_iff, (canonical_buffer 32).bind_eq_ok_iff, pure_eq_ok_iff, true_and]
  constructor
  · rintro ⟨version, -, rfl, parent, -, rfl, height, -, rfl, state, -, rfl, xs, -, rfl, rfl, rfl⟩
    simp only [encode, List.append_assoc]
  · rintro rfl
    refine ⟨t.version, _, ?_, t.parent, _, rfl, t.height, _, rfl, t.stateDigest, _, rfl,
      t.extrinsicsDigest, rest, rfl, rfl, rfl⟩
    simp only [encode, List.append_assoc]

/-- A header fits if its seal does. -/
def Header.Fits (h : Header) : Prop := h.sealedBy.Fits

theorem canonical_header : Canonical Header Header.Fits :=
  (canonical_headerTemplate.record canonical_seal (fun _ _ => ⟨rfl, rfl⟩)
    fun _ => rfl).congr_fits fun _ => Iff.of_eq (true_and _)

/-! ### Calls and extrinsics -/

/-- An extrinsic fits if its payload does. -/
def Extrinsic.Fits (x : Extrinsic) : Prop := x.payload.length < lengthLimit

instance : DecidablePred Extrinsic.Fits := fun x => Nat.decLt x.payload.length lengthLimit

theorem canonical_extrinsic : Canonical Extrinsic Extrinsic.Fits :=
  (canonical_bytes.record canonical_uInt64 (fun _ _ => ⟨rfl, rfl⟩) fun _ => rfl).congr_fits
    fun _ => Iff.of_eq (and_true _)

/-- A call fits if the raw key and value in it do. -/
def Call.Fits : Call → Prop
  | .set key value => key.length < lengthLimit ∧ value.length < lengthLimit
  | .remove key => key.length < lengthLimit
  | .mint _ _ | .burn _ _ | .transfer _ _ _ => True

theorem canonical_call : Canonical Call Call.Fits := by
  have hpay := canonical_buffer 32
  intro input call rest
  show (decoder >>= fun tag : UInt8 => _) input = _ ↔ _
  rw [tag_eq_ok_iff]
  constructor
  · rintro ⟨tag, mid, rfl, h⟩
    -- the tag tells which kind of call follows
    split at h
    · rename_i htag
      obtain ⟨key, value, hkey, hvalue, rfl, rfl⟩ :=
        (canonical_bytes.both_eq_ok_iff canonical_bytes).1 h
      exact ⟨⟨hkey, hvalue⟩, by rw [htag]; exact congrArg _ (List.append_assoc ..).symm⟩
    split at h
    · rename_i htag
      obtain ⟨key, hkey, rfl, rfl⟩ := canonical_bytes.map_eq_ok_iff.1 h
      exact ⟨hkey, by rw [htag]; rfl⟩
    split at h
    · rename_i htag
      obtain ⟨account, amount, -, -, rfl, rfl⟩ := (hpay.both_eq_ok_iff canonical_uInt64).1 h
      exact ⟨trivial, by rw [htag]; exact congrArg _ (List.append_assoc ..).symm⟩
    split at h
    · rename_i htag
      obtain ⟨account, amount, -, -, rfl, rfl⟩ := (hpay.both_eq_ok_iff canonical_uInt64).1 h
      exact ⟨trivial, by rw [htag]; exact congrArg _ (List.append_assoc ..).symm⟩
    split at h
    · rename_i htag
      obtain ⟨source, mid, -, rfl, hmid⟩ := hpay.bind_eq_ok_iff.1 h
      obtain ⟨target, amount, -, -, rfl, rfl⟩ := (hpay.both_eq_ok_iff canonical_uInt64).1 hmid
      refine ⟨trivial, ?_⟩
      rw [htag]
      show _ = 4 :: (encode source ++ encode target ++ encode amount ++ rest)
      simp only [List.append_assoc]
    · exact absurd h fail_ne_ok
  · rintro ⟨hfits, rfl⟩
    cases call with
    | set key value =>
      exact ⟨0, _, rfl, (canonical_bytes.both_eq_ok_iff canonical_bytes).2
        ⟨key, value, hfits.1, hfits.2, List.append_assoc .., rfl⟩⟩
    | remove key =>
      exact ⟨1, _, rfl, canonical_bytes.map_eq_ok_iff.2 ⟨key, hfits, rfl, rfl⟩⟩
    | mint account amount =>
      exact ⟨2, _, rfl, (hpay.both_eq_ok_iff canonical_uInt64).2
        ⟨account, amount, trivial, trivial, List.append_assoc .., rfl⟩⟩
    | burn account amount =>
      exact ⟨3, _, rfl, (hpay.both_eq_ok_iff canonical_uInt64).2
        ⟨account, amount, trivial, trivial, List.append_assoc .., rfl⟩⟩
    | transfer source target amount =>
      refine ⟨4, _, rfl, hpay.bind_eq_ok_iff.2 ⟨source, _, trivial, ?_,
        (hpay.both_eq_ok_iff canonical_uInt64).2 ⟨target, amount, trivial, trivial, rfl, rfl⟩⟩⟩
      show encode source ++ encode target ++ encode amount ++ rest = _
      simp only [List.append_assoc]

/-! ### Writes -/

/-- A write fits if its key and value do. -/
def Write.Fits : Write → Prop
  | .put key value => key.length < lengthLimit ∧ value.length < lengthLimit
  | .delete key => key.length < lengthLimit

theorem canonical_write : Canonical Write Write.Fits := by
  intro input w rest
  show (decoder >>= fun tag : UInt8 => _) input = _ ↔ _
  rw [tag_eq_ok_iff]
  constructor
  · rintro ⟨tag, mid, rfl, h⟩
    split at h
    · rename_i htag
      obtain ⟨key, value, hkey, hvalue, rfl, rfl⟩ :=
        (canonical_bytes.both_eq_ok_iff canonical_bytes).1 h
      exact ⟨⟨hkey, hvalue⟩, by rw [htag]; exact congrArg _ (List.append_assoc ..).symm⟩
    split at h
    · rename_i htag
      obtain ⟨key, hkey, rfl, rfl⟩ := canonical_bytes.map_eq_ok_iff.1 h
      exact ⟨hkey, by rw [htag]; rfl⟩
    · exact absurd h fail_ne_ok
  · rintro ⟨hfits, rfl⟩
    cases w with
    | put key value =>
      exact ⟨0, _, rfl, (canonical_bytes.both_eq_ok_iff canonical_bytes).2
        ⟨key, value, hfits.1, hfits.2, List.append_assoc .., rfl⟩⟩
    | delete key =>
      exact ⟨1, _, rfl, canonical_bytes.map_eq_ok_iff.2 ⟨key, hfits, rfl, rfl⟩⟩

/-- A batch fits if all its writes do, and are not too many. -/
def WriteBatch.Fits (batch : WriteBatch) : Prop := ListFits Write.Fits batch.writes

theorem canonical_writeBatch : Canonical WriteBatch WriteBatch.Fits :=
  (reads_decodeList canonical_write).map (g := WriteBatch.mk) (fun _ _ => rfl) fun _ => rfl

/-! ### Blocks -/

/-- A block fits if its header and all its extrinsics do, and these are not too many. -/
structure Block.Fits (b : Block) : Prop where
  header : b.header.Fits
  extrinsics : ListFits Extrinsic.Fits b.extrinsics

theorem Block.fits_iff {b : Block} :
    b.Fits ↔ b.header.sealedBy.Fits ∧ ListFits Extrinsic.Fits b.extrinsics :=
  ⟨fun h => ⟨h.header, h.extrinsics⟩, fun h => ⟨h.1, h.2⟩⟩

instance : DecidablePred Block.Fits := fun _ => decidable_of_iff' _ Block.fits_iff

theorem canonical_block : Canonical Block Block.Fits :=
  (canonical_header.record (reads_decodeList canonical_extrinsic) (fun _ _ => ⟨rfl, rfl⟩)
    fun _ => rfl).congr_fits fun _ => Block.fits_iff.symm

/-- **A byte string decodes to a block if and only if it is the form of that block**, which is of
the current version. -/
theorem Block.oneForm :
    OneForm decode (fun b => b.header.version = blockVersion ∧ b.Fits) encode := by
  intro input b
  unfold Block.decode
  constructor
  · intro h
    split at h
    · cases h
    · rename_i b' hb'
      split at h
      · rename_i hversion
        cases h
        obtain ⟨hfits, rfl⟩ := (canonical_block.oneForm _ _).1 hb'
        exact ⟨⟨hversion, hfits⟩, rfl⟩
      · cases h
  · rintro ⟨⟨hversion, hfits⟩, rfl⟩
    rw [Block.encode, canonical_block.decode_encode hfits]
    exact if_pos hversion

end LedgerChain
