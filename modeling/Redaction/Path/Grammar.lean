import Redaction.Failure
import Redaction.Path.Scan

/-!
# The grammar of path texts

A path text is accepted when it is not empty, holds no two dots in a row, its brackets pair up
without nesting, and it has at least one segment. A concrete path has a key in the place of its
first wildcard, and there is none for a key without text.
-/

namespace Redaction.Path

def hasDoubleDot : List Char → Bool
  | '.' :: '.' :: _ => true
  | _ :: rest => hasDoubleDot rest
  | [] => false

/-- Read on inside or outside a bracket, every bracket has its partner and none is nested. -/
def balancedFrom : Bool → List Char → Bool
  | inside, [] => !inside
  | inside, c :: rest =>
    if c = '[' then !inside && balancedFrom true rest
    else if c = ']' then inside && balancedFrom false rest
    else balancedFrom inside rest

def accepts (path : String) : Bool :=
  !path.isEmpty && !hasDoubleDot path.toList && balancedFrom false path.toList
    && !(segments path).isEmpty

def check (path : String) : Except Failure (List String) :=
  if accepts path then .ok (segments path) else .error (.invalidPath path)

/-- The path text with its first wildcard segment replaced by a label, which is asked for only when
there is such a segment. -/
def concrete (path : String) (label : Except Failure String) : Except Failure String :=
  if (segments path).contains wildcard then label.map (instantiate path) else .ok path

end Redaction.Path
