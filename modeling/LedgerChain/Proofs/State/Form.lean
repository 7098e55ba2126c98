import LedgerChain.Proofs.State.Lookups
import LedgerChain.Proofs.Wire.Formats

/-!
# The binary form of a state

The form of a state lists its entries in the order of their keys.  A decoder of states is more
liberal than those of other formats: it takes the pairs in any order, and of several with one key the
last one counts.  So a state has more forms than its own, and all there is to say of one that is read
is what the pairs in it say (`State.decode_eq_ok_iff`).  The state's own form is read back
(`State.decode_encode_eq_ok_iff`).
-/

namespace LedgerChain

open Wire

namespace Entries

/-- An entry fits if its key and value do. -/
def PairFits (p : Bytes × Bytes) : Prop := p.1.length < lengthLimit ∧ p.2.length < lengthLimit

instance : DecidablePred PairFits := fun p =>
  inferInstanceAs (Decidable (p.1.length < lengthLimit ∧ p.2.length < lengthLimit))

theorem canonical_pairs : Canonical (Bytes × Bytes) PairFits :=
  canonical_pair canonical_bytes canonical_bytes

end Entries

/-! ### States -/

namespace State

variable {input rest : Bytes} {st : State}

/-- A state fits if all its entries do, and are not too many. -/
def Fits (st : State) : Prop := ListFits Entries.PairFits st.entries.toList

/-- **A byte string decodes to a state if and only if it lists pairs of which the last one for each
key is the state's entry**, followed by the state's version. -/
theorem decode_eq_ok_iff :
    (decode input : Except WireError State) = .ok st ↔
      ∃ pairs, ListFits Entries.PairFits pairs ∧ input = encodeList pairs ++ encode st.version ∧
        ∀ k, st.find? k = Entries.findPair k pairs.reverse := by
  rw [Wire.decode_eq_ok_iff]
  show (do
    let pairs ← decodeList
    let version ← decoder
    pure (State.mk (Entries.ofList pairs) version)) input = _ ↔ _
  rw [(reads_decodeList Entries.canonical_pairs).both_eq_ok_iff canonical_uInt64]
  constructor
  · rintro ⟨pairs, version, hpairs, -, rfl, rfl⟩
    exact ⟨pairs, hpairs, by rw [List.append_nil], Entries.find?_ofList pairs⟩
  · rintro ⟨pairs, hpairs, rfl, hfind⟩
    have hentries : Entries.ofList pairs = st.entries :=
      Entries.ext_find? fun k => (Entries.find?_ofList pairs k).trans (hfind k).symm
    exact ⟨pairs, st.version, hpairs, trivial, by rw [List.append_nil], by rw [hentries]⟩

/-- **The states that fit are read back from their own form**, and no others. -/
theorem decode_encode_eq_ok_iff :
    (decode (encode st) : Except WireError State) = .ok st ↔ st.Fits := by
  rw [decode_eq_ok_iff]
  constructor
  · rintro ⟨pairs, hpairs, -, hfind⟩
    have hsub : st.entries.toList ⊆ pairs := fun p hp => by
      have hp' := Entries.find?_eq_some_iff.2 hp
      rw [← State.find?, hfind] at hp'
      exact List.mem_reverse.1 (Entries.mem_of_findPair hp')
    have hcount := (List.subperm_of_subset st.entries.nodup_toList hsub).length_le
    exact ⟨Nat.lt_of_le_of_lt hcount hpairs.1, fun p hp => hpairs.2 p (hsub hp)⟩
  · intro hfits
    refine ⟨st.entries.toList, hfits, rfl, fun k => ?_⟩
    rw [← Entries.find?_ofList, Entries.ofList_toList, find?]

end State

/-- **All formats are canonical, in both directions.**  What fits is read back from its form, and
what is read had exactly this form; a block is of the current version besides.  The one exception is
the state, which is read back from its own form but also from others: those with pairs of which the
last one for each key is the state's entry. -/
theorem formats_canonical :
    OneForm Block.decode (fun b => b.header.version = blockVersion ∧ b.Fits) Block.encode ∧
    OneForm (decode : Bytes → Except WireError Header) Header.Fits encode ∧
    OneForm (decode : Bytes → Except WireError HeaderTemplate) (fun _ => True) encode ∧
    OneForm (decode : Bytes → Except WireError Seal) Seal.Fits encode ∧
    OneForm (decode : Bytes → Except WireError Extrinsic) Extrinsic.Fits encode ∧
    OneForm (decode : Bytes → Except WireError Call) Call.Fits encode ∧
    OneForm (decode : Bytes → Except WireError WriteBatch) WriteBatch.Fits encode ∧
    OneForm (decode : Bytes → Except WireError WorkProof) (fun _ => True) encode ∧
    OneForm (decode : Bytes → Except WireError AuthorityProof) (fun _ => True) encode ∧
    (∀ st : State, (decode (encode st) : Except WireError State) = .ok st ↔ st.Fits) ∧
    ∀ (input : Bytes) (st : State), (decode input : Except WireError State) = .ok st ↔
      ∃ pairs, ListFits Entries.PairFits pairs ∧ input = encodeList pairs ++ encode st.version ∧
        ∀ k, st.find? k = Entries.findPair k pairs.reverse :=
  ⟨Block.oneForm, canonical_header.oneForm, canonical_headerTemplate.oneForm,
    canonical_seal.oneForm, canonical_extrinsic.oneForm, canonical_call.oneForm,
    canonical_writeBatch.oneForm, canonical_workProof.oneForm, canonical_authorityProof.oneForm,
    fun _ => State.decode_encode_eq_ok_iff, fun _ _ => State.decode_eq_ok_iff⟩

end LedgerChain
