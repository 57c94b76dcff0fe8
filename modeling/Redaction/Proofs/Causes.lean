import Redaction.Proofs.Endings
import Redaction.Proofs.Refusals
import Redaction.Proofs.Siblings
import Redaction.Proofs.Steps

/-!
# Causes of failing calls

Whatever value an engine is called on, and whatever writes have made of it, a path that has segments
fails for four reasons only: one of them is a numeral that is too long to be read, a container has
lost a key before its turn came, a key has no text to stand for a wildcard, or the censor fails. No
write is made at no path at all, and no wildcard is looked for where there is none. Beyond its paths
a call fails when its duplicates cannot be made, when its result has an integer without text, or as
its writer does.

Main statement: `Engine.canFail_of_run`.
-/

namespace Redaction

/-- The censor answers some question with the failure. -/
def Censor.Raises (censor : Censor) (failure : Failure) : Prop :=
  ∃ f asked question next, censor = .function f ∧ f asked question next = .error failure

inductive Censor.CanFail (censor : Censor) : Failure → Prop
  | numeral (digits : Nat) : CanFail censor (.longNumeral digits)
  | key (name : String) : CanFail censor (.unknownName name)
  | label : CanFail censor .longInteger
  | raised {failure : Failure} (h : censor.Raises failure) : CanFail censor failure

/-- The writer that makes the output fails so on some value. -/
def Output.Raises (output : Output) (failure : Failure) : Prop :=
  ∃ f v, output = .writer f ∧ f v = .error failure

namespace Run

/-- The run fails only with what a run with the censor can fail with. -/
def FailsOnlyBy {α : Type} (censor : Censor) (m : Run α) : Prop :=
  ∀ s, Ends m s (fun _ _ => True) fun failure _ => censor.CanFail failure

variable {α β : Type} {censor : Censor} {path : String}

theorem failsOnlyBy_pure (a : α) : FailsOnlyBy censor (pure a : Run α) := fun _ => trivial

theorem failsOnlyBy_throw {failure : Failure} (h : censor.CanFail failure) :
    FailsOnlyBy censor (throw failure : Run α) := fun _ => h

theorem failsOnlyBy_root : FailsOnlyBy censor root := fun _ => trivial

theorem failsOnlyBy_ofExcept {x : Except Failure α}
    (h : ∀ failure, x = .error failure → censor.CanFail failure) :
    FailsOnlyBy censor (ofExcept x) := by
  cases x with
  | ok a => exact failsOnlyBy_pure a
  | error failure => exact failsOnlyBy_throw (h failure rfl)

theorem FailsOnlyBy.bind {m : Run α} {f : α → Run β} (hm : FailsOnlyBy censor m)
    (hf : ∀ a, FailsOnlyBy censor (f a)) : FailsOnlyBy censor (m >>= f) := by
  intro s
  rw [ends_bind]
  exact (hm s).mono fun a t _ => hf a t

theorem failsOnlyBy_performAll (ws : List Write) : FailsOnlyBy censor (performAll ws) := by
  intro s
  rw [Ends, performAll_eq]
  trivial

theorem failsOnlyBy_replacement (v : Value) (path : String) :
    FailsOnlyBy censor (censor.replacement v path) := by
  cases censor with
  | literal x => exact failsOnlyBy_pure x
  | function f =>
    intro s
    simp only [Ends, Censor.replacement, bind, EStateM.bind, get, getThe, MonadStateOf.get,
      EStateM.get, set, EStateM.set]
    cases h : f s.consultations ⟨v, path⟩ s.next with
    | error failure => exact .raised ⟨f, _, _, _, rfl, h⟩
    | ok x => trivial

/-! ## Lookups -/

section

variable {root v x : Value} {segments : List String} {failure : Failure}

theorem canFail_of_find? (h : v.find? segments = .error failure) : censor.CanFail failure := by
  obtain ⟨_, segment, _, _, rfl⟩ := Value.find?_eq_error.mp h
  exact .numeral segment.toList.length

theorem canFail_of_overwrite (hne : segments ≠ []) (h : v.overwrite segments x = .error failure) :
    censor.CanFail failure := by
  rw [← List.dropLast_append_getLast hne] at h
  obtain ⟨_, segment, _, _, _, rfl⟩ := Value.overwrite_eq_error.mp h
  exact .numeral segment.toList.length

theorem canFail_of_affected? {last : String} (h : affected? v segments last = .error failure) :
    censor.CanFail failure := by
  unfold affected? at h
  split at h
  · rename_i reason hfind
    obtain rfl := Except.error.inj h
    exact canFail_of_find? hfind
  · cases h
  · split at h
    · cases h
    · split at h
      · cases h
      · exact canFail_of_find? h

end

theorem canFail_of_concrete {key : Key} {failure : Failure}
    (h : Path.concrete path key.display = .error failure) : censor.CanFail failure := by
  rw [Path.concrete_display] at h
  split at h
  · cases h
  · obtain rfl := Except.error.inj h
    exact .label

theorem inherits_failsOnlyBy (censor : Censor) :
    Inherits censor fun _ m => FailsOnlyBy censor m where
  pure := failsOnlyBy_pure
  bind := FailsOnlyBy.bind
  root := failsOnlyBy_root
  find _ _ := failsOnlyBy_ofExcept fun _ => canFail_of_find?
  affect _ _ _ := failsOnlyBy_ofExcept fun _ => canFail_of_affected?
  overwrite _ _ _ hne := failsOnlyBy_ofExcept fun _ => canFail_of_overwrite hne
  lose k := failsOnlyBy_throw (.key k.wording)
  label _ _ := failsOnlyBy_ofExcept fun _ => canFail_of_concrete
  perform := failsOnlyBy_performAll
  ask := failsOnlyBy_replacement

end Run

namespace Engine

/-- What a call can fail with: what its paths can fail with, a copy that cannot be made, an integer
that its JSON text has no digits for, or the failure of its writer. -/
inductive CanFail (engine : Engine) : Failure → Prop
  | path {failure : Failure} (h : engine.policy.applied.CanFail failure) : CanFail engine failure
  | copy : CanFail engine .uncopyableView
  | text : CanFail engine .longInteger
  | output {failure : Failure} (h : engine.policy.output.Raises failure) : CanFail engine failure

variable {engine : Engine} {v : Value} {next : Ident} {failure : Failure}

/-- A write at no path, and a wildcard that is not there, are failures that only the collaborators
of an engine make. -/
theorem CanFail.raises (h : engine.CanFail failure)
    (hpathless : failure = .noSegments ∨ failure = .noWildcard) :
    engine.policy.applied.Raises failure ∨ engine.policy.output.Raises failure := by
  cases h with
  | path h =>
    cases h with
    | numeral digits => simp at hpathless
    | key name => simp at hpathless
    | label => simp at hpathless
    | raised h => exact .inl h
  | copy => simp at hpathless
  | text => simp at hpathless
  | output h => exact .inr h

/-- The result is not given its form only by a writer, or where an integer has no text. -/
theorem canFail_of_finish (h : finish engine.policy.output v = .error failure) :
    engine.CanFail failure := by
  unfold finish at h
  split at h
  · obtain rfl := (Value.json_eq_error (map_eq_error.mp h)).1
    exact .text
  · cases h
  · rename_i f hf
    exact .output ⟨f, v, hf, h⟩

theorem canFail_of_duplicate {thaw : Bool} (h : v.duplicate thaw next = .error failure) :
    engine.CanFail failure := by
  unfold Value.duplicate at h
  split at h
  · cases h
  · obtain rfl := Except.error.inj h
    exact .copy

theorem canFail_of_prepare (h : engine.prepare v next = .error failure) :
    engine.CanFail failure := by
  unfold prepare at h
  cases hworking : v.duplicate true next with
  | error reason =>
    rw [hworking] at h
    obtain rfl := Except.error.inj h
    exact canFail_of_duplicate hworking
  | ok working =>
    simp only [hworking, bind, Except.bind] at h
    split at h
    · cases hsnapshot : v.duplicate false working.2 with
      | error reason =>
        rw [hsnapshot] at h
        obtain rfl := Except.error.inj h
        exact canFail_of_duplicate hsnapshot
      | ok snapshot =>
        rw [hsnapshot] at h
        cases h
    · cases h

theorem canFail_of_close {snapshot : Option Value}
    (h : (engine.close snapshot v next).1 = .error failure) : engine.CanFail failure := by
  unfold close at h
  split at h
  · exact canFail_of_finish h
  · split at h <;> cases h

/-- A call fails with nothing else, as long as the engine's paths have segments. -/
theorem canFail_of_run (hpaths : ∀ path ∈ engine.paths, path.segments ≠ [])
    (h : (engine.run v next).result = .error failure) : engine.CanFail failure := by
  unfold run at h
  split at h
  · exact canFail_of_finish h
  · split at h
    · rename_i reason hprepare
      obtain rfl := Except.error.inj h
      exact canFail_of_prepare hprepare
    · rename_i working snapshot m hprepare
      have hends : Run.Ends (applyPaths engine.policy.applied engine.paths) (.start working m)
          (fun _ _ => True) fun failure _ => engine.policy.applied.CanFail failure :=
        applyPaths_inherits (Run.inherits_failsOnlyBy _) (fun path mem _ _ =>
          Run.failsOnlyBy_ofExcept fun _ => Run.canFail_of_overwrite (hpaths path mem)) _
      rw [Run.Ends] at hends
      split at h
      · rename_i reason s happly
        obtain rfl := Except.error.inj h
        rw [happly] at hends
        exact .path hends
      · exact canFail_of_close h

end Engine

end Redaction
