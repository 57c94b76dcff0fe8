import Redaction.Engine

/-!
# What runs inherit from their steps

Applying a path is a row of lookups, questions and writes. A property of runs that each of these
has, and that passes from steps to the run they make up, is one of every path, whatever value is
under edit. Nothing is known there of the value or of the steps before, so this serves for
properties that no step depends on.

Main statement: `Engine.applyPaths_inherits`.
-/

namespace Redaction

namespace Run

/-- The steps of paths with a censor have a property of runs, and runs inherit it from their
steps. -/
structure Inherits (censor : Censor) (C : (α : Type) → Run α → Prop) : Prop where
  pure {α : Type} (a : α) : C α (pure a)
  bind {α β : Type} {m : Run α} {f : α → Run β} (hm : C α m) (hf : ∀ a, C β (f a)) :
    C β (m >>= f)
  root : C Value root
  find (v : Value) (segments : List String) : C _ (ofExcept (v.find? segments))
  affect (branch : Value) (suffix : List String) (last : String) :
    C _ (ofExcept (affected? branch suffix last))
  overwrite (v x : Value) {segments : List String} (hne : segments ≠ []) :
    C _ (ofExcept (v.overwrite segments x))
  lose (k : Key) : C Nat (throw (.unknownName k.wording))
  perform (ws : List Write) : C Unit (performAll ws)
  label (path : String) (key : Key) : C String (ofExcept (Path.concrete path key.display))
  ask (v : Value) (path : String) : C Value (censor.replacement v path)

namespace Inherits

variable {censor : Censor} {C : (α : Type) → Run α → Prop} {path : String} {segments : List String}

theorem replacementAt (h : Inherits censor C) (v : Value) (key : Key) :
    C Value (censor.replacementAt v path key) :=
  h.bind (h.label path key) fun text => h.ask v text

theorem replaceEach (h : Inherits censor C) (container : Value) (slots : List Slot) :
    C Nat (replaceEach censor path container slots) := by
  induction slots with
  | nil => exact h.pure 0
  | cons slot rest ih =>
    obtain ⟨key, v⟩ := slot
    rw [Run.replaceEach]
    refine h.bind (h.replacementAt v key) fun x => h.bind (h.perform _) fun _ => ?_
    exact h.bind ih fun count => h.pure (count + 1)

theorem replaceBelow (h : Inherits censor C) (suffix : List String) (last : String)
    (container : Value) (keys : List Key) :
    C Nat (replaceBelow censor path suffix last container keys) := by
  induction keys generalizing container with
  | nil => exact h.pure 0
  | cons key rest ih =>
    rw [Run.replaceBelow]
    split
    · exact h.lose key
    · refine h.bind (h.affect _ suffix last) fun found => ?_
      cases found with
      | none => exact ih container
      | some v =>
        refine h.bind (h.replacementAt v key) fun x => ?_
        refine h.bind (h.overwrite _ x (by simp)) fun writes => ?_
        cases writes with
        | none => exact ih container
        | some ws =>
          refine h.bind (h.perform ws) fun _ => ?_
          exact h.bind (ih _) fun count => h.pure (count + 1)

theorem expand (h : Inherits censor C) (hwild : segments.contains Path.wildcard = true) :
    C Nat (expand censor path segments) := by
  unfold Run.expand
  rw [hwild]
  refine h.bind h.root fun v => h.bind (h.find v _) fun found => ?_
  cases found with
  | none => exact h.pure 0
  | some container =>
    dsimp only
    split
    · split
      · exact h.replaceEach container _
      · exact h.pure 0
    · exact h.replaceBelow _ _ container _

/-- Redacting one place relies on a segment to write at, unless the property is one of writes at no
path too. -/
theorem replaceAt (h : Inherits censor C)
    (hover : ∀ v x : Value, C _ (ofExcept (v.overwrite segments x))) :
    C Nat (replaceAt censor path segments) := by
  refine h.bind h.root fun v => h.bind (h.find v segments) fun found => ?_
  cases found with
  | none => exact h.pure 0
  | some u =>
    refine h.bind (h.ask u path) fun x => h.bind h.root fun v => h.bind (hover v x) fun writes => ?_
    cases writes with
    | none => exact h.pure 0
    | some ws => exact h.bind (h.perform ws) fun _ => h.pure 1

end Inherits

end Run

/-- Applying paths inherits a property from the steps, and from writes where a path without wildcard
leads. -/
theorem Engine.applyPaths_inherits {censor : Censor} {C : (α : Type) → Run α → Prop}
    {paths : List CompiledPath} (h : Run.Inherits censor C)
    (hover : ∀ path ∈ paths, ∀ v x : Value, C _ (Run.ofExcept (v.overwrite path.segments x))) :
    C Nat (applyPaths censor paths) := by
  induction paths with
  | nil => exact h.pure 0
  | cons path rest ih =>
    obtain ⟨hpath, hrest⟩ := List.forall_mem_cons.mp hover
    have happly : C Nat (applyPath censor path) := by
      unfold applyPath
      split
      · rename_i hwild
        exact h.expand hwild
      · exact h.replaceAt hpath
    exact h.bind happly fun count => h.bind (ih hrest) fun more => h.pure (count + more)

end Redaction
