import LedgerChain.Document.Failures

/-!
# Values as documents

How states, extrinsics, blocks and what became of them are shown.  Amounts, heights and weights are
shown as text, sizes and counts as numbers, and long byte strings by their length only.
-/

namespace LedgerChain

namespace Document

/-- A byte string in hexadecimal if it is short, and by its length otherwise. -/
def brief (bs : Bytes) : Document :=
  if bs.length ≤ 64 then ofBytes bs else text s!"#{bs.length}"

/-- A word as text. -/
def word (n : UInt64) : Document := decimal n.toNat

/-- A key and a value. -/
def entry (key value : Bytes) : Document := list [brief key, brief value]

end Document

open Document

/-- Shows a block's identifier. -/
def BlockId.toDocument (id : BlockId) : Document := ofBuffer id.digest

/-- Shows an extrinsic's identifier. -/
def ExtrinsicId.toDocument (id : ExtrinsicId) : Document := ofBuffer id.digest

/-- Shows a state. -/
def State.toDocument [Crypto] (s : State) : Document := ofFields [
  ("digest", ofBuffer s.digest),
  ("version", word s.version),
  ("len", ofNat s.entries.size),
  ("empty", bool s.entries.toList.isEmpty),
  ("entries", .ofList (fun (key, value) => entry key value) s.entries.toList)]

/-- Shows a write. -/
def Write.toDocument : Write → Document
  | put key value => ofFields [("put", entry key value)]
  | delete key => ofFields [("del", brief key)]

/-- Shows a call. -/
def Call.toDocument : Call → Document
  | set key value => ofFields [("set", entry key value)]
  | remove key => ofFields [("remove", brief key)]
  | mint account amount => ofFields [("mint", list [ofBuffer account, word amount])]
  | burn account amount => ofFields [("burn", list [ofBuffer account, word amount])]
  | transfer source target amount => ofFields
    [("transfer", list [ofBuffer source, ofBuffer target, word amount])]

/-- Shows an extrinsic and the call in it. -/
def Extrinsic.toDocument [Crypto] (x : Extrinsic) : Document := ofFields [
  ("id", x.id.toDocument),
  ("size", ofNat x.size),
  ("prio", word x.priority),
  ("payload", brief x.payload),
  ("call", Failure.orElse x.call Call.toDocument)]

/-- Shows an extrinsic that was left out. -/
def ExtrinsicError.toDocument (e : ExtrinsicError) (id : ExtrinsicId) : Document :=
  ofFields [
    ("error", text (Failure.name e)),
    ("message", text e.message),
    ("id", id.toDocument)]

/-- Shows a seal. -/
def Seal.toDocument (s : Seal) : Document :=
  ofFields [("tag", text s.kind.name), ("proof", brief s.proof)]

/-- The fields of an unsealed header. -/
def HeaderTemplate.fields (t : HeaderTemplate) : List (String × Document) := [
  ("parent", t.parent.toDocument),
  ("height", word t.height),
  ("state_digest", ofBuffer t.stateDigest),
  ("ext_digest", ofBuffer t.extrinsicsDigest)]

/-- Shows a header. -/
def Header.toDocument [Crypto] (h : Header) : Document := ofFields (h.fields ++ [
  ("id", h.id.toDocument),
  ("version", ofNat h.version.toNat),
  ("seal", h.sealedBy.toDocument)])

/-- Shows a block, with the digest that its header should have. -/
def Block.toDocument [Crypto] (b : Block) : Document := ofFields [
  ("header", b.header.toDocument),
  ("exts", ofList Extrinsic.toDocument b.extrinsics),
  ("computed_ext_digest", ofBuffer b.computedExtrinsicsDigest)]

/-- The name of a reason. -/
def IgnoreReason.name : IgnoreReason → String
  | alreadyKnown => "AlreadyKnown"
  | notBetter => "NotBetter"
  | stale => "Stale"

/-- Shows a reason. -/
def IgnoreReason.toDocument (r : IgnoreReason) : Document := text s!"Ignored/{r.name}"

/-- The fields of an outcome, with the blocks shown as given. -/
def Outcome.fields (o : Outcome) (display : Block → Document) : List (String × Document) :=
  ("changed", bool o.changedCanonical) ::
    match o with
    | extended => [("outcome", text "ExtendedCanonical")]
    | switched retract apply => [
      ("outcome", text "NewBetterTip"),
      ("retract", ofList display retract),
      ("apply", ofList display apply)]
    | ignored reason => [("outcome", reason.toDocument)]

/-- The fields of what became of a block from outside. -/
def ImportResult.fields (r : ImportResult) (display : Block → Document) :
    List (String × Document) :=
  let flags := [bool r.isAccepted, bool r.isRejected, bool r.changedCanonical]
  ("flags", list flags) ::
    match r with
    | accepted outcome => ("result", text "Accepted") :: outcome.fields display
    | ignored reason => [("result", reason.toDocument)]
    | pendingParent => [("result", text "PendingParent")]
    | rejected cause => [
      ("result", text "Rejected"),
      ("error", text (Failure.name cause)),
      ("message", text cause.message)] ++ Failure.details cause

end LedgerChain
