import LedgerChain.Toml.Value

/-!
# TOML texts

A text is a sequence of sections.  The first one has no header; each other one starts with a header
in single brackets, or in double brackets if it is an element of a list.  The sections are put
together into one record by the parts of their headers.
-/

namespace LedgerChain

namespace Toml

/-- The lines under one header. -/
structure Section where
  /-- The parts of the header. -/
  header : List String
  /-- Whether the header is in double brackets. -/
  isElement : Bool
  fields : List (String × Document)

open Reader

/-! ### Lines -/

/-- The end of a line, after a comment if there is one. -/
def lineEnd : Reader Unit := do
  skipBlank
  discard (eat .comment)
  match ← get with
  | [] => pure ()
  | .newline :: rest => set rest
  | _ => failure

/-- A header after its first bracket, as a section without lines. -/
def header : Reader Section := do
  let isElement ← eat .leftBracket
  let (part, parts) ← dottedKey
  expect .rightBracket
  if isElement then expect .rightBracket
  lineEnd
  pure ⟨part :: parts, isElement, []⟩

/-- The section with one more line. -/
def keyLine (s : Section) : Reader Section := do
  let (key, parts) ← dottedKey
  expect .equals
  skipBlank
  let v ← value
  lineEnd
  let fields ← (addField v key parts s.fields : Option _)
  pure { s with fields }

/-- The sections of at most `steps` more lines, after the lines of the section at hand. -/
def sectionsFrom : (steps : Nat) → Section → Reader (List Section)
  | 0, _ => failure
  | steps + 1, s => do
    skipLines
    match ← get with
    | [] => pure [s]
    | .leftBracket :: rest => do
      set rest
      let s' ← header
      let rest ← sectionsFrom steps s'
      pure (s :: rest)
    | _ => do
      let s' ← keyLine s
      sectionsFrom steps s'

/-- The sections of a text.  The one without header is left out if it is empty. -/
def sections : Reader (List Section) := do
  let all ← sectionsFrom ((← get).length + 1) ⟨[], false, []⟩
  pure (all.filter fun s => !s.header.isEmpty || !s.fields.isEmpty)

/-! ### Putting sections together -/

/-- The section without the first part of its header. -/
def Section.inner (s : Section) : Section := { s with header := s.header.tail }

/-- The sections, gathered by the first part of their headers.  A section without header is on its
own.  Groups are in the order of their first sections. -/
def gather : (steps : Nat) → List Section → List (List Section)
  | _, [] => []
  | 0, _ :: _ => []
  | steps + 1, s :: rest =>
    match s.header.head? with
    | none => [s] :: gather steps rest
    | some key =>
      let (same, others) := rest.partition fun t => t.header.head? = some key
      (s :: same) :: gather steps others

/-- The section that the ones after it must not repeat, once there is one more: the one with the
shortest header, and of several such ones the first. -/
def guardAfter (guarding s : Section) : Section :=
  if s.header.length < guarding.header.length then s else guarding

/-- Whether no section repeats the header of the one that guards it. -/
def noRepeats (guarding : Section) : List Section → Bool
  | [] => true
  | s :: rest => guarding.header ≠ s.header && noRepeats (guardAfter guarding s) rest

/-- The elements of a list, each with the sections below it. -/
def elements : List Section → List (Section × List Section)
  | [] => []
  | s :: rest =>
    match elements rest with
    | [] => [(s, [])]
    | (t, below) :: others =>
      if t.isElement && t.header.isEmpty then (s, []) :: (t, below) :: others
      else (s, t :: below) :: others

/-- The fields of the record that is made up of sections, with headers of at most `depth` parts.  If
the sections lie below another one, they must not repeat it. -/
def assemble : (depth : Nat) → Option Section → List Section → Option (List (String × Document))
  | depth, above, all => do
    let groups := gather all.length all
    let firsts := groups.filterMap List.head?
    let fresh :=
      match above with
      | some s => noRepeats s firsts
      | none =>
        match firsts with
        | [] => true
        | s :: rest => noRepeats s rest
    if !fresh then none
    else
      let parts ← groups.mapM fun group =>
        match group with
        | [] => some []
        | s :: rest =>
          match s.header with
          | [] => if s.isElement then none else some s.fields
          | key :: further =>
            match depth with
            | 0 => none
            | depth + 1 => do
              let inner := (s :: rest).map Section.inner
              if s.isElement && further.isEmpty then do
                let items ← (elements inner).mapM fun (t, below) => do
                  let fields ← assemble depth (some t) below
                  pure (Document.record .headed (t.fields ++ fields))
                pure [(key, Document.list items)]
              else do
                let fields ← assemble depth none inner
                pure [(key, Document.record .headed fields)]
      pure parts.flatten

/-- The record that a list of sections makes up. -/
def Section.join (all : List Section) : Option Document := do
  let depth := all.foldl (fun n s => max n s.header.length) 0
  let fields ← assemble depth none all
  pure (.record .headed fields)

/-- What a TOML text says. -/
def parse (text : String) : Option Document := do
  let tokens ← Token.scan text.toList
  let (all, _) ← sections tokens
  Section.join all

end Toml

end LedgerChain
