import Redaction.Value.Reduction

/-!
# Restorable values

Any value can be made to give back a snapshot, unless its class admits no other class under it. A
container keeps the snapshot itself. A scalar has no place for one, so the snapshot stands beside
it; redaction never makes a scalar restorable, and none stands inside a container.
-/

namespace Redaction

inductive Restorable where
  | container (v : Value)
  | scalar (s : Scalar) (snapshot : Value)

/-- No class can stand under that of the value: the absent value, a truth value or a view. -/
def Value.isSealed : Value → Bool
  | scalar (.atom .null) | scalar (.atom (.bool _)) => true
  | scalar _ => false
  | node _ shape _ _ _ => shape = .view

namespace Restorable

/-- The value under a new identity, so that it gives back the snapshot. -/
def ofValue (v snapshot : Value) (id : Ident) : Except Failure Restorable :=
  if v.isSealed then .error (.sealedClass v.className)
  else match v with
    | .scalar s => .ok (scalar s snapshot)
    | v => .ok (container (v.withRestore snapshot id))

def renew (r : Restorable) (snapshot : Value) (id : Ident) : Restorable :=
  match r with
  | container v => container (v.withRestore snapshot id)
  | scalar s _ => scalar s snapshot

def className : Restorable → String
  | container v => v.className
  | scalar s _ => "Redacted" ++ s.className

def restore (r : Restorable) (next : Ident) : Except Failure (Value × Ident) :=
  match r with
  | container v => v.restore next
  | scalar _ snapshot => snapshot.duplicate false next

end Restorable

end Redaction
