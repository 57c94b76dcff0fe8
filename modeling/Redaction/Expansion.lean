import Redaction.Censor
import Redaction.Value.Lookup

/-!
# Redacting one path

A path without wildcard redacts the place that its segments lead to. The first wildcard of a path
stands for every child of the container that it is met at. When nothing follows it, each child is
replaced; otherwise the segments after it are followed from each child, and branches in which they
lead nowhere are passed over. There a later wildcard stands for a key of that text, but a wildcard
at the very end fills all slots of the container before it with one replacement.

Each replacement is asked for under the path in which the child's key stands for the wildcard. A key
without text ends the run there.
-/

namespace Redaction

namespace Run

/-- Replaces the values in the given slots of a container, and returns the number of them. -/
def replaceEach (censor : Censor) (path : String) (container : Value) : List Slot → Run Nat
  | [] => pure 0
  | (key, v) :: rest => do
    let x ← censor.replacementAt v path key
    performAll (container.writeTo key x).toList
    let count ← replaceEach censor path container rest
    return count + 1

/-- The value that the censor is asked about in one branch: what the segments lead to, or the
container that a wildcard at their end fills. There is none where nothing could be overwritten. -/
def affected? (branch : Value) (suffix : List String) (last : String) :
    Except Failure (Option Value) :=
  match branch.find? suffix with
  | .error failure => .error failure
  | .ok none => .ok none
  | .ok (some container) =>
    if !container.kind.isWritable then .ok none
    else if last = Path.wildcard then .ok (some container)
    else container.find? [last]

/-- Follows the segments `suffix` and `last` from each of the given children of a container, and
replaces what they lead to. The number of replacements is returned. The run fails at a key that the
container has no more. -/
def replaceBelow (censor : Censor) (path : String) (suffix : List String) (last : String) :
    Value → List Key → Run Nat
  | _, [] => pure 0
  | container, key :: rest =>
    match Slots.get? key container.children with
    | none => throw (.unknownName key.wording)
    | some branch => do
      match ← ofExcept (affected? branch suffix last) with
      | none => replaceBelow censor path suffix last container rest
      | some v =>
        let x ← censor.replacementAt v path key
        match ← ofExcept (branch.overwrite (suffix ++ [last]) x) with
        | none => replaceBelow censor path suffix last container rest
        | some writes =>
          performAll writes
          let count ← replaceBelow censor path suffix last (container.afterAll writes) rest
          return count + 1

/-- Redacts every place that segments with a wildcard lead to, and returns the number of them. -/
def expand (censor : Censor) (path : String) (segments : List String) : Run Nat := do
  if !segments.contains Path.wildcard then throw .noWildcard
  let before := segments.takeWhile (· ≠ Path.wildcard)
  let suffix := (segments.dropWhile (· ≠ Path.wildcard)).drop 1
  match ← ofExcept ((← root).find? before) with
  | none => return 0
  | some container =>
    match suffix.getLast? with
    | none =>
      if container.kind.isWritable then replaceEach censor path container container.children
      else return 0
    | some last => replaceBelow censor path suffix.dropLast last container container.keys

/-- Redacts the place that segments without wildcard lead to, and returns the number of places. -/
def replaceAt (censor : Censor) (path : String) (segments : List String) : Run Nat := do
  match ← ofExcept ((← root).find? segments) with
  | none => return 0
  | some v =>
    let x ← censor.replacement v path
    match ← ofExcept ((← root).overwrite segments x) with
    | none => return 0
    | some writes =>
      performAll writes
      return 1

end Redaction.Run
