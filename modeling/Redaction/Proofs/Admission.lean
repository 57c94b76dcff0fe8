import Redaction.Proofs.Causes
import Redaction.Proofs.Spelling

/-!
# Which configurations make an engine

An engine is made of fields with overrides if and only if each field given is usable. Otherwise the
failure tells of every field that is not, in the order of the fields and each in its own words.

The segments of an engine that was made are not empty, and neither is any of them. So a call never
writes at no path at all, and it looks for a wildcard only where there is one: such a failure is
that of its censor or its writer.

Main statement: `Engine.configure_all_or_nothing`.
-/

namespace Redaction

theorem Path.segments_of_check {path : String} {segments : List String}
    (h : check path = .ok segments) :
    segments = Path.segments path ∧ segments ≠ [] ∧ "" ∉ segments := by
  rw [check] at h
  split at h
  swap
  · cases h
  rename_i haccepts
  obtain rfl := Except.ok.inj h
  obtain ⟨_, _, hne, l, _, hl⟩ := means_iff.mpr ⟨haccepts, rfl⟩
  refine ⟨rfl, hne, fun mem => ?_⟩
  rw [← hl] at mem
  obtain ⟨cs, hcs, hchars, _⟩ := l.exists_of_mem_segments mem
  have hempty : String.ofList [] = String.ofList cs := hcs
  exact hchars (String.ofList_injective hempty).symm

namespace Engine

variable {setting : Setting} {base overrides : Draft} {engine : Engine} {failure : Failure}

@[simp] theorem configure_fields :
    configure setting (.fields base overrides) = ofDraft setting base overrides := rfl

/-- What is said of a draft that is refused: one message for each field that is not usable. -/
theorem message_of_ofDraft (h : ofDraft setting base overrides = .error failure) :
    ∃ (invalid : List Field) (words : Field → String), invalid.Sublist Field.all ∧
      (∀ field, field ∈ invalid ↔ ¬(base.merge overrides).Usable setting field) ∧
      (∀ field ∈ invalid, ∀ text,
        (base.merge overrides).Rejected setting field text ↔ text = words field) ∧
      (∃ complaints, failure = .misconfigured complaints) ∧
      failure.message = String.intercalate "; " (invalid.map words) := by
  unfold ofDraft at h
  split at h
  · cases h
  rename_i complaints hcomplaints
  obtain rfl := Draft.check_eq_error hcomplaints
  obtain rfl := Except.error.inj h
  generalize base.merge overrides = draft
  refine ⟨Field.all.filter fun field => (draft.complaint? setting field).isSome,
    draft.wording setting, List.filter_sublist, fun field => ?_, fun field mem text => ?_,
    ⟨_, rfl⟩, ?_⟩
  · have hall : field ∈ Field.all := by cases field <;> decide
    rw [Draft.usable_iff, ← ne_eq, ← Option.isSome_iff_ne_none, List.mem_filter]
    exact ⟨fun h => h.2, fun h => ⟨hall, h⟩⟩
  · obtain ⟨c, hc⟩ := Option.isSome_iff_exists.mp (List.mem_filter.mp mem).2
    simp [Draft.rejected_iff, Draft.wording, hc]
  · rw [← Draft.map_message_complaints]
    rfl

/-- An engine is made of fields with overrides if and only if each field given is usable. Otherwise
the failure has one message for each field that is not, in the order of the fields. The paths of an
engine that was made are those given, in their order, each with the segments that its check gives:
there is one at least, and none is empty. No call of it writes at no path at all or expands a
wildcard that is not there: a call fails so only when its censor or its writer does. -/
theorem configure_all_or_nothing (setting : Setting) (base overrides : Draft) :
    ((∃ engine, configure setting (.fields base overrides) = .ok engine) ↔
      ∀ field, (base.merge overrides).Usable setting field) ∧
    (∀ failure, configure setting (.fields base overrides) = .error failure →
      ∃ (invalid : List Field) (words : Field → String), invalid.Sublist Field.all ∧
        (∀ field, field ∈ invalid ↔ ¬(base.merge overrides).Usable setting field) ∧
        (∀ field ∈ invalid, ∀ text,
          (base.merge overrides).Rejected setting field text ↔ text = words field) ∧
        (∃ complaints, failure = .misconfigured complaints) ∧
        failure.message = String.intercalate "; " (invalid.map words)) ∧
    ∀ engine, configure setting (.fields base overrides) = .ok engine →
      ((base.merge overrides).paths = none → engine.paths = []) ∧
      (∀ v ∈ (base.merge overrides).paths, v.GivesPaths (engine.paths.map CompiledPath.text)) ∧
      (∀ path ∈ engine.paths, Path.check path.text = .ok path.segments ∧ path.segments ≠ [] ∧
        "" ∉ path.segments) ∧
      ∀ v next failure, (engine.run v next).result = .error failure → engine.CanFail failure ∧
        (failure = .noSegments ∨ failure = .noWildcard →
          engine.policy.applied.Raises failure ∨ engine.policy.output.Raises failure) := by
  simp only [configure_fields]
  refine ⟨?_, fun failure h => message_of_ofDraft h, fun engine h => ?_⟩
  · simp only [ofDraft_eq_ok, Draft.usable_iff]
    rw [← Draft.check_isOk_iff]
    exact ⟨fun ⟨engine, h⟩ => ⟨_, h⟩, fun ⟨policy, h⟩ => ⟨⟨policy⟩, h⟩⟩
  · have hpaths := (Draft.check_eq_ok.mp (ofDraft_eq_ok.mp h)).1
    have htexts : engine.paths.map CompiledPath.text = engine.policy.paths := by
      simp [paths, Function.comp_def]
    have hcheck : ∀ path ∈ engine.paths, Path.check path.text = .ok path.segments := by
      intro path mem
      obtain ⟨text, htext, rfl⟩ := List.mem_map.mp mem
      rw [Path.check, if_pos (Draft.accepts_of_check (ofDraft_eq_ok.mp h) text htext)]
    have hsegments : ∀ path ∈ engine.paths, path.segments ≠ [] := fun path mem =>
      (Path.segments_of_check (hcheck path mem)).2.1
    refine ⟨fun hnone => ?_, fun v hv => ?_, fun path mem => ?_, fun v next failure hfails => ?_⟩
    · rw [hnone] at hpaths
      have hempty : [] = engine.policy.paths := Except.ok.inj hpaths
      rw [paths, ← hempty, List.map_nil]
    · rw [hv] at hpaths
      rw [htexts]
      exact (Draft.checkPaths_eq_ok.mp hpaths).1
    · exact ⟨hcheck path mem, (Path.segments_of_check (hcheck path mem)).2⟩
    · have hcan := canFail_of_run hsegments hfails
      exact ⟨hcan, hcan.raises⟩

end Engine

namespace Sample

/-- Four fields that cannot be used. A path that breaks the grammar stands before an item that is no
text. -/
def muddle : Draft where
  paths := some (.list 0 [.text "a..b", .atom (.int 5)])
  output := some (.value (.text "yes"))
  strict := some (.text "maybe")
  remove := some .null

end Sample

example : Engine.configure (.lenient false) (.fields Sample.muddle {}) =
      .error (.misconfigured [.pathNotText, .unusableOutput, .unreadableBoolean, .notBoolean]) ∧
    Engine.configure (.lenient false)
        (.fields Sample.muddle { paths := some (.list 0 [.text "a..b"]) }) =
      .error (.misconfigured [.invalidPath "a..b", .unusableOutput, .unreadableBoolean,
        .notBoolean]) := by
  cbv

end Redaction
