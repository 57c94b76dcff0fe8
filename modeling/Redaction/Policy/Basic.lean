import Redaction.Censor
import Redaction.Path.Grammar
import Redaction.Policy.Boolean

/-!
# Policies

A draft gives some of the fields of a policy as values that may or may not be usable. Checking a
draft gives the policy, in which every field that was not given has its default, or one complaint
for each unusable field.
-/

namespace Redaction

/-- Where policies are checked: what debugging is set to by default, and which values are read as a
boolean. The booleans themselves are. -/
structure Setting where
  debugDefault : Bool
  boolean : Value → Except Complaint Bool
  boolean_bool (b : Bool) : boolean (.atom (.bool b)) = .ok b

/-- The setting in which booleans are read leniently. -/
def Setting.lenient (debugDefault : Bool) : Setting :=
  ⟨debugDefault, Policy.booleanOf, fun _ => rfl⟩

inductive Field where
  | paths
  | censor
  | output
  | strict
  | remove
  | debug
deriving Repr, DecidableEq

/-- All fields, in the order in which complaints about them are made. -/
def Field.all : List Field := [.paths, .censor, .output, .strict, .remove, .debug]

/-- A function from the redacted value to the result. -/
abbrev Writer := Value → Except Failure Value

/-- What becomes of the redacted value: its JSON text, the value itself with a snapshot of what it
was, or what a writer makes of it. -/
inductive Output where
  | text
  | live
  | writer (f : Writer)

inductive OutputRequest where
  | value (v : Value)
  | writer (f : Writer)

structure Draft where
  paths : Option Value := none
  censor : Option Censor := none
  output : Option OutputRequest := none
  strict : Option Value := none
  remove : Option Value := none
  debug : Option Value := none

structure Policy where
  paths : List String
  censor : Censor
  output : Output
  strict : Bool
  remove : Bool
  debug : Bool
  /-- The fields that were given. -/
  given : List Field

namespace Draft

/-- A draft with the fields of another draft put over its own. -/
def merge (base overrides : Draft) : Draft where
  paths := overrides.paths <|> base.paths
  censor := overrides.censor <|> base.censor
  output := overrides.output <|> base.output
  strict := overrides.strict <|> base.strict
  remove := overrides.remove <|> base.remove
  debug := overrides.debug <|> base.debug

def gives (draft : Draft) : Field → Bool
  | .paths => draft.paths.isSome
  | .censor => draft.censor.isSome
  | .output => draft.output.isSome
  | .strict => draft.strict.isSome
  | .remove => draft.remove.isSome
  | .debug => draft.debug.isSome

def items? : Value → Option (List Value)
  | .node _ (.sequence .plain) _ _ slots => some (slots.map Prod.snd)
  | .node _ (.tuple _) _ _ slots => some (slots.map Prod.snd)
  | _ => none

def text? : Value → Option String
  | .scalar (.atom (.text s)) => some s
  | _ => none

/-- Checks the paths: no value stands for no paths, and every item of a list has to be a text before
any of them has to be a path. -/
def checkPaths : Value → Except Complaint (List String)
  | .scalar (.atom .null) => .ok []
  | v =>
    match items? v with
    | none => .error .pathsNotList
    | some items =>
      match items.mapM text? with
      | none => .error .pathNotText
      | some texts =>
        match texts.find? fun path => !Path.accepts path with
        | some path => .error (.invalidPath path)
        | none => .ok texts

def checkOutput : OutputRequest → Except Complaint Output
  | .value (.scalar (.atom (.bool true))) => .ok .text
  | .value (.scalar (.atom (.bool false))) => .ok .live
  | .value _ => .error .unusableOutput
  | .writer f => .ok (.writer f)

def checked {α β : Type} (field : Option α) (check : α → Except Complaint β) (default : β) :
    Except Complaint β :=
  match field with
  | none => .ok default
  | some a => check a

/-- The complaint about a field, if there is one. -/
def complaint {β : Type} : Except Complaint β → List Complaint
  | .ok _ => []
  | .error c => [c]

def defaultReplacement : Value := .text "[REDACTED]"

/-- The policy of a draft, or the complaints about its fields in their order. -/
def check (setting : Setting) (draft : Draft) : Except (List Complaint) Policy :=
  let paths := checked draft.paths checkPaths []
  let output := checked draft.output checkOutput .text
  let strict := checked draft.strict setting.boolean true
  let remove := checked draft.remove setting.boolean false
  let debug := checked draft.debug setting.boolean setting.debugDefault
  match paths, output, strict, remove, debug with
  | .ok paths, .ok output, .ok strict, .ok remove, .ok debug =>
    .ok {
      paths, output, strict, remove, debug
      censor := draft.censor.getD (.literal defaultReplacement)
      given := Field.all.filter draft.gives }
  | _, _, _, _, _ =>
    .error (complaint paths ++ complaint output ++ complaint strict ++ complaint remove
      ++ complaint debug)

end Draft

namespace Policy

def outputRequest : Output → OutputRequest
  | .text => .value (.atom (.bool true))
  | .live => .value (.atom (.bool false))
  | .writer f => .writer f

/-- The draft of the fields that were given, with their checked values. -/
def toDraft (policy : Policy) : Draft :=
  let givenOr := fun {α : Type} (field : Field) (a : α) =>
    if policy.given.contains field then some a else none
  { paths := givenOr .paths
      (.node 0 (.tuple .plain) none none (indexed (policy.paths.map Value.text)))
    censor := givenOr .censor policy.censor
    output := givenOr .output (outputRequest policy.output)
    strict := givenOr .strict (.atom (.bool policy.strict))
    remove := givenOr .remove (.atom (.bool policy.remove))
    debug := givenOr .debug (.atom (.bool policy.debug)) }

/-- The censor that a policy applies: deletion takes the place of any other. -/
def applied (policy : Policy) : Censor :=
  if policy.remove then .literal .remove else policy.censor

end Redaction.Policy
