import LedgerChain.Block

/-!
# Execution of extrinsics

An extrinsic is turned into a batch of writes against a state, or refused with a reason, and never
changes a state in part.  A block applies its extrinsics one after the other and is refused as a
whole if one of them is.  An author instead leaves the refused ones out.
-/

namespace LedgerChain

/-- The largest value that a call may set, in bytes. -/
def maxValueSize : Nat := 16 * 1024

/-- Why an extrinsic is refused. -/
inductive ExtrinsicError where
  | invalidPayload
  | emptyKey
  | reservedKey
  | valueTooLarge (size limit : Nat)
  | missingKey
  | zeroAmount
  | insufficientBalance (account : Account) (balance amount : UInt64)
  | balanceOverflow (account : Account)
  | malformedBalance (account : Account)
deriving DecidableEq

/-- The wording of a refusal. -/
def ExtrinsicError.message : ExtrinsicError → String
  | invalidPayload => "payload is not a valid call"
  | emptyKey => "empty key"
  | reservedKey => "key is in the reserved balance namespace"
  | valueTooLarge size limit => s!"value too large ({size} bytes, max {limit})"
  | missingKey => "missing key"
  | zeroAmount => "zero amount"
  | insufficientBalance account balance amount =>
    s!"insufficient balance on {account} (have {balance.toNat}, need {amount.toNat})"
  | balanceOverflow account => s!"balance overflow on {account}"
  | malformedBalance account => s!"malformed balance entry for {account}"

/-- Why a block's extrinsics do not apply: one of them is refused. -/
structure TransitionError where
  /-- The position of the extrinsic in the block. -/
  index : Nat
  /-- The extrinsic. -/
  id : ExtrinsicId
  /-- Why it is refused. -/
  cause : ExtrinsicError
deriving DecidableEq

/-- The wording of a transition error. -/
def TransitionError.message (e : TransitionError) : String :=
  s!"extrinsic {e.index} ({e.id}) failed: {e.cause.message}"

namespace Execution

/-- An account's balance; an account without an entry has none. -/
def balance (s : State) (account : Account) : Except ExtrinsicError UInt64 :=
  match s.find? (balanceKey account) with
  | none => .ok 0
  | some raw =>
    match (Wire.decode raw : Except WireError UInt64) with
    | .error _ => .error (.malformedBalance account)
    | .ok amount => .ok amount

/-- The write that sets an account's balance.  An empty balance has no entry. -/
def balanceWrite (account : Account) (amount : UInt64) : Write :=
  if amount = 0 then .delete (balanceKey account)
  else .put (balanceKey account) (Wire.encode amount)

/-- A raw key must be non-empty and not set aside for balances. -/
def checkRawKey (key : Bytes) : Except ExtrinsicError Unit :=
  if key.isEmpty then .error .emptyKey
  else if isReservedKey key then .error .reservedKey
  else .ok ()

/-- An amount must not be zero. -/
def checkAmount (amount : UInt64) : Except ExtrinsicError Unit :=
  if amount = 0 then .error .zeroAmount else .ok ()

/-- The balance after an amount is added. -/
def credit (account : Account) (held amount : UInt64) : Except ExtrinsicError UInt64 :=
  if held.toNat + amount.toNat < UInt64.size then .ok (held + amount)
  else .error (.balanceOverflow account)

/-- The balance after an amount is taken away. -/
def debit (account : Account) (held amount : UInt64) : Except ExtrinsicError UInt64 :=
  if amount ≤ held then .ok (held - amount)
  else .error (.insufficientBalance account held amount)

/-- The writes of a call against a state. -/
def callWrites (s : State) : Call → Except ExtrinsicError WriteBatch
  | .set key value => do
    checkRawKey key
    if maxValueSize < value.length then .error (.valueTooLarge value.length maxValueSize)
    else pure ⟨[.put key value]⟩
  | .remove key => do
    checkRawKey key
    if s.contains key then pure ⟨[.delete key]⟩ else .error .missingKey
  | .mint account amount => do
    checkAmount amount
    let new ← credit account (← balance s account) amount
    pure ⟨[balanceWrite account new]⟩
  | .burn account amount => do
    checkAmount amount
    let new ← debit account (← balance s account) amount
    pure ⟨[balanceWrite account new]⟩
  | .transfer source target amount => do
    checkAmount amount
    let newSource ← debit source (← balance s source) amount
    if source = target then pure ⟨[]⟩
    else
      let newTarget ← credit target (← balance s target) amount
      pure ⟨[balanceWrite source newSource, balanceWrite target newTarget]⟩

/-- The writes of an extrinsic against a state. -/
def writes (s : State) (x : Extrinsic) : Except ExtrinsicError WriteBatch :=
  match x.call with
  | .error _ => .error .invalidPayload
  | .ok call => callWrites s call

/-- The state after an extrinsic. -/
def step (s : State) (x : Extrinsic) : Except ExtrinsicError State :=
  match writes s x with
  | .error e => .error e
  | .ok batch => .ok (batch.apply s)

variable [Crypto]

/-- What a block's extrinsics lead to. -/
structure Output where
  /-- The state after the block. -/
  state : State
  stateDigest : Digest
  extrinsicsDigest : Digest
deriving DecidableEq

/-- Closes a block over the state that its extrinsics led to. -/
def finish (s : State) (xs : List Extrinsic) : Output :=
  let after := s.bumpVersion
  ⟨after, after.digest, extrinsicsDigest xs⟩

/-- The state after a list of extrinsics, of which the first has the given position. -/
def run (s : State) : (index : Nat) → List Extrinsic → Except TransitionError State
  | _, [] => .ok s
  | index, x :: xs =>
    match step s x with
    | .error e => .error ⟨index, x.id, e⟩
    | .ok s' => run s' (index + 1) xs

/-- Applies all extrinsics of a block, or none. -/
def applyAll (s : State) (xs : List Extrinsic) : Except TransitionError Output :=
  match run s 0 xs with
  | .error e => .error e
  | .ok s' => .ok (finish s' xs)

/-- Candidates for a block, split by whether they apply. -/
structure Selection where
  /-- The ones that apply, in the order given. -/
  included : List Extrinsic
  /-- The ones that do not, in the order given, with the reason. -/
  excluded : List (Extrinsic × ExtrinsicError)
  /-- What the included ones lead to. -/
  output : Output
deriving DecidableEq

omit [Crypto] in
/-- Applies candidates one after the other and skips the refused ones. -/
def sift (s : State) :
    List Extrinsic → State × List Extrinsic × List (Extrinsic × ExtrinsicError)
  | [] => (s, [], [])
  | x :: xs =>
    match step s x with
    | .error e =>
      let (s', included, excluded) := sift s xs
      (s', included, (x, e) :: excluded)
    | .ok s₁ =>
      let (s', included, excluded) := sift s₁ xs
      (s', x :: included, excluded)

/-- Chooses the candidates that apply on top of a state. -/
def select (s : State) (candidates : List Extrinsic) : Selection :=
  let (s', included, excluded) := sift s candidates
  ⟨included, excluded, finish s' included⟩

end Execution

end LedgerChain
