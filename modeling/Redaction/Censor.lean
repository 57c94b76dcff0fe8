import Redaction.Path.Grammar
import Redaction.Run
import Redaction.Value.Display

/-!
# Censors

A censor gives the replacement for a value at a path. It is either one value for all places, which
is then shared by all of them, or a function.
-/

namespace Redaction

/-- A censor function. It is given the earlier consultations of the run, latest first, the present
one, and the first unused identity: containers that it makes take identities from there on. -/
abbrev CensorFunction := List Consultation → Consultation → Ident → Except Failure Value

inductive Censor where
  | literal (v : Value)
  | function (f : CensorFunction)

namespace Censor

/-- The replacement for a value at a path. Only functions are consulted on record. -/
def replacement (censor : Censor) (v : Value) (path : String) : Run Value :=
  match censor with
  | literal x => pure x
  | function f => do
    let s ← get
    let question : Consultation := ⟨v, path⟩
    set { s with consultations := question :: s.consultations }
    let x ← Run.ofExcept (f s.consultations question s.next)
    modify fun s => { s with next := max s.next x.bound }
    return x

/-- The replacement for what stands under a key, asked for under the path with that key in the place
of its first wildcard. The path is made whether or not the censor looks at it. -/
def replacementAt (censor : Censor) (v : Value) (path : String) (key : Key) : Run Value := do
  let text ← Run.ofExcept (Path.concrete path key.display)
  censor.replacement v text

/-- A function of the present consultation alone. -/
def stateless (f : Value → String → Ident → Except Failure Value) : Censor :=
  function fun _ question next => f question.value question.path next

def tellPath : Censor := stateless fun _ path _ => .ok (.text ("REDACTED:" ++ path))

def tellKind : Censor := stateless fun v path _ => .ok (.text (v.kind.name ++ "@" ++ path))

/-- Stars, followed by the last four characters of a text. -/
def mask : Censor := stateless fun v _ _ =>
  match v with
  | .scalar (.atom (.text s)) =>
    let cs := s.toList
    .ok (.text ("****" ++ String.ofList (cs.drop (cs.length - 4))))
  | _ => .ok (.text "****")

def wrap : Censor := stateless fun v path next =>
  .ok (.dict next [(.text "path", .text path), (.text "was", v)])

/-- A new structure of nested containers on each consultation. -/
def fresh : Censor := stateless fun _ path next =>
  .ok (.dict next
    [(.text "a", .list (next + 1)
      [.atom (.int 1), .dict (next + 2) [(.text "b", .text path)]]),
    (.text "x", .null)])

def echo : Censor := stateless fun v _ _ => .ok v

def deletion : Censor := stateless fun _ _ _ => .ok .remove

/-- Fails on the text `boom` and accepts every other value. -/
def touchy : Censor := stateless fun v path _ =>
  match v with
  | .scalar (.atom (.text "boom")) => .error (.censorFailed path)
  | _ => .ok (.text ("ok:" ++ path))

end Redaction.Censor
