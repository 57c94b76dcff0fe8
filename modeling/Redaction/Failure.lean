import Redaction.Text.Quoted

/-!
# Failures

Every way in which building or running a redaction can fail, as a cause. The wording of each cause
is `Complaint.message` or `Failure.message`.
-/

namespace Redaction

inductive Complaint where
  | pathsNotList
  | pathNotText
  | invalidPath (path : String)
  | unusableOutput
  | notBoolean
  | unreadableBoolean
deriving Repr, DecidableEq

def invalidPathMessage (path : String) : String := "Invalid redaction path (" ++ path ++ ")"

def Complaint.message : Complaint → String
  | .pathsNotList => "paths must be a list"
  | .pathNotText => "Paths must be (non-empty) strings"
  | .invalidPath path => invalidPathMessage path
  | .unusableOutput => "serialize must be callable or a boolean"
  | .notBoolean => "Input should be a valid boolean"
  | .unreadableBoolean => "Input should be a valid boolean, unable to interpret input"

inductive Failure where
  /-- A path text breaks the grammar. -/
  | invalidPath (path : String)
  /-- A segment that has to be read as an index is a numeral of this many digits. -/
  | longNumeral (digits : Nat)
  /-- The text of a number with too many digits was asked for. -/
  | longInteger
  /-- A write was asked for at no path at all. -/
  | noSegments
  /-- A wildcard expansion was asked for without a wildcard segment. -/
  | noWildcard
  /-- A read-only view stands inside a container that is copied as a whole. -/
  | uncopyableView
  /-- A mapping has a name that a JSON object cannot hold. -/
  | unwritableName
  /-- A policy was built from invalid fields; one complaint for each. -/
  | invalidPolicy (complaints : List Complaint)
  /-- An engine was configured with invalid fields; one complaint for each. -/
  | misconfigured (complaints : List Complaint)
  /-- The censor failed at a path. -/
  | censorFailed (path : String)
  /-- The writer of the output failed. -/
  | writerFailed
  /-- Nothing is found under this name: no value, no engine, or no slot of a container. -/
  | unknownName (name : String)
  /-- The value keeps no snapshot. -/
  | notRestorable
  /-- A value of this class cannot be made restorable. -/
  | sealedClass (name : String)
deriving Repr, DecidableEq

/-- The messages of all complaints, in the order of the fields. -/
def Complaint.messages (complaints : List Complaint) : String :=
  String.intercalate "; " (complaints.map Complaint.message)

/-- What is said of a numeral that is too long to be read or written. -/
def limitMessage (detail : String) : String :=
  "Exceeds the limit (" ++ Text.decimal 1 numeralLimit ++
    " digits) for integer string conversion" ++ detail ++
    "; use sys.set_int_max_str_digits() to increase the limit"

def Failure.message : Failure → String
  | .invalidPath path => invalidPathMessage path
  | .longNumeral digits =>
    limitMessage (": value has " ++ Text.decimal 1 digits ++ " digits")
  | .longInteger => limitMessage ""
  | .noSegments => "tuple index out of range"
  | .noWildcard => "tuple.index(x): x not in tuple"
  | .uncopyableView => "cannot pickle 'mappingproxy' object"
  | .unwritableName => "a JSON object name must be a text, a number, a boolean or null"
  | .invalidPolicy complaints => Complaint.messages complaints
  | .misconfigured complaints => Complaint.messages complaints
  | .censorFailed path => "censor failed at " ++ path
  | .writerFailed => "serializer failed"
  | .unknownName name => Text.literal name
  | .notRestorable => "NotRestorable"
  | .sealedClass name => "type '" ++ name ++ "' is not an acceptable base type"

/-- The decimal numeral of a number, if it is not too long. -/
def Text.integer (n : Int) : Except Failure String :=
  if Text.isShort n then .ok (Text.signed n) else .error .longInteger

end Redaction
