import Redaction.Failure
import Redaction.Value.Write

/-!
# Runs

A run edits one value in place. Its workspace holds that value as it stands, the writes that were
made and the consultations of the censor. A failing run keeps its workspace, so that what it did
before it failed can be seen.
-/

namespace Redaction

structure Consultation where
  value : Value
  path : String

/-- The state of a run. Writes and consultations stand in reverse order, the latest first. -/
structure Workspace where
  root : Value
  /-- Identities from here on are unused. -/
  next : Ident
  writes : List Write
  consultations : List Consultation

/-- The workspace in which a run on a value begins. -/
def Workspace.start (root : Value) (next : Ident) : Workspace := ⟨root, next, [], []⟩

/-- A computation on a workspace that may fail. -/
abbrev Run := EStateM Failure Workspace

namespace Run

def root : Run Value := do return (← get).root

def ofExcept {α : Type} : Except Failure α → Run α
  | .ok a => pure a
  | .error failure => throw failure

def perform (w : Write) : Run Unit :=
  modify fun s => { s with root := s.root.after w, writes := w :: s.writes }

def performAll : List Write → Run Unit
  | [] => pure ()
  | w :: ws => do
    perform w
    performAll ws

end Redaction.Run
