import Redaction.Expansion
import Redaction.Policy.Basic
import Redaction.Value.Json
import Redaction.Value.Reduction

/-!
# Engines

An engine redacts values by a policy. It works on a thawed duplicate of its input, which it never
writes to, applies the paths one after another, and gives the result in the form that the policy
asks for. A live result keeps a duplicate of the input as its snapshot.
-/

namespace Redaction

structure CompiledPath where
  text : String
  segments : List String
deriving Repr, DecidableEq

def CompiledPath.hasWildcard (path : CompiledPath) : Bool := path.segments.contains Path.wildcard

structure Engine where
  policy : Policy

/-- How an engine is asked for: by fields with overrides, by a policy of its own with overrides,
or by a policy as it is. -/
inductive Configuration where
  | fields (base overrides : Draft)
  | policy (base overrides : Draft)
  | direct (base : Draft)

structure Outcome where
  result : Except Failure Value
  /-- Identities from here on are unused. -/
  next : Ident
  /-- The writes that were made, in order. -/
  writes : List Write := []
  /-- The consultations of the censor, in order. -/
  consultations : List Consultation := []
  /-- The debug lines that were written. -/
  lines : List String := []

namespace Engine

/-- The paths of an engine, in the order in which they are applied. -/
def paths (engine : Engine) : List CompiledPath :=
  engine.policy.paths.map fun path => ⟨path, Path.segments path⟩

/-- A debug line, which is written only when the policy asks for it. -/
def note (engine : Engine) (message : String) : List String :=
  if engine.policy.debug then ["[slow-redact] " ++ message] else []

/-- The debug lines written when an engine is built. -/
def openingLines (engine : Engine) : List String :=
  engine.note ("Compiled " ++ Text.decimal 1 engine.policy.paths.length ++ " path(s)")

def policyOf (setting : Setting) (draft : Draft) : Except Failure Policy :=
  match draft.check setting with
  | .ok policy => .ok policy
  | .error complaints => .error (.invalidPolicy complaints)

def ofDraft (setting : Setting) (base overrides : Draft) : Except Failure Engine :=
  match (base.merge overrides).check setting with
  | .ok policy => .ok ⟨policy⟩
  | .error complaints => .error (.misconfigured complaints)

/-- The engine for the policy of another one with overrides. Fields that were never given take their
defaults again. -/
def derive (setting : Setting) (policy : Policy) (overrides : Draft) : Except Failure Engine :=
  ofDraft setting policy.toDraft overrides

def configure (setting : Setting) : Configuration → Except Failure Engine
  | .fields base overrides => ofDraft setting base overrides
  | .policy base overrides => do derive setting (← policyOf setting base) overrides
  | .direct base => return ⟨← policyOf setting base⟩

/-- Applies one path, and returns the number of places it redacted. -/
def applyPath (censor : Censor) (path : CompiledPath) : Run Nat :=
  if path.hasWildcard then Run.expand censor path.text path.segments
  else Run.replaceAt censor path.text path.segments

/-- Applies paths one after another, and returns the number of places they redacted. -/
def applyPaths (censor : Censor) : List CompiledPath → Run Nat
  | [] => pure 0
  | path :: rest => do
    let count ← applyPath censor path
    return count + (← applyPaths censor rest)

def finish (output : Output) (v : Value) : Except Failure Value :=
  match output with
  | .text => v.json.map Value.text
  | .live => .ok v
  | .writer f => f v

/-- The two duplicates that a call begins with: the one to work on, and the snapshot if the result
is to be live. -/
def prepare (engine : Engine) (v : Value) (next : Ident) :
    Except Failure (Value × Option Value × Ident) := do
  let (working, next) ← v.duplicate true next
  match engine.policy.output with
  | .live =>
    let (snapshot, next) ← v.duplicate false next
    return (working, some snapshot, next)
  | _ => return (working, none, next)

/-- Gives the working copy out once all paths are applied. -/
def close (engine : Engine) (snapshot : Option Value) (working : Value) (next : Ident) :
    Except Failure Value × Ident :=
  match snapshot with
  | none => (finish engine.policy.output working, next)
  | some snapshot =>
    if working.kind.isWritable then (.ok (working.withRestore snapshot next), next + 1)
    else (.ok working, next)

/-- Redacts a value, with identities from `next` on. A strict engine passes anything through that
paths do not lead into. -/
def run (engine : Engine) (v : Value) (next : Ident) : Outcome :=
  if engine.policy.strict && !v.kind.isTraversable then
    { result := finish engine.policy.output v
      next
      lines := engine.note ("Passing through " ++ v.className ++ " in strict mode") }
  else
    match engine.prepare v next with
    | .error failure => { result := .error failure, next }
    | .ok (working, snapshot, next) =>
      match applyPaths engine.policy.applied engine.paths (.start working next) with
      | .error failure s =>
        { result := .error failure
          next := s.next
          writes := s.writes.reverse
          consultations := s.consultations.reverse }
      | .ok count s =>
        let (result, next) := engine.close snapshot s.root s.next
        { result
          next
          writes := s.writes.reverse
          consultations := s.consultations.reverse
          lines := engine.note ("Redacted " ++ Text.decimal 1 count ++ " location(s) for " ++
            Text.decimal 1 engine.paths.length ++ " path(s)") }

/-- The engine after writes, which show in the value of its censor. -/
def afterAll (ws : List Write) (engine : Engine) : Engine :=
  match engine.policy.censor with
  | .literal v => ⟨{ engine.policy with censor := .literal (v.afterAll ws) }⟩
  | .function _ => engine

end Engine

namespace Writer

def labelled : Writer := fun v => v.json.map fun text => .text ("custom:" ++ text)

def bare : Writer := fun v => .ok v

/-- The name of the kind of the redacted value. -/
def kindName : Writer := fun v => .ok (.text v.kind.name)

def failing : Writer := fun _ => .error .writerFailed

end Redaction.Writer
