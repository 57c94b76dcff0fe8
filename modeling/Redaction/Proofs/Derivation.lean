import Redaction.Proofs.Admission

/-!
# Deriving engines from engines

A policy carries the fields that were given, in the form that their checks have made of them, and
an engine that is derived from it checks them again. A check leaves what it has made as it is, so
the policy says the same as the draft it came from, and overrides can be put over either. A chain
of derivations therefore gives the engine of all its drafts merged, and where it fails so does that
engine, in the same words. Fields that were never given are not carried: each derivation gives them
their defaults again.

Main statement: `Engine.deriveAll_merges`.
-/

namespace Redaction

namespace Draft

/-! ## Drafts that say the same -/

structure Restates (setting : Setting) (a b : Draft) : Prop where
  paths : a.paths.map checkPaths = b.paths.map checkPaths
  censor : a.censor = b.censor
  output : a.output.map checkOutput = b.output.map checkOutput
  strict : a.strict.map setting.boolean = b.strict.map setting.boolean
  remove : a.remove.map setting.boolean = b.remove.map setting.boolean
  debug : a.debug.map setting.boolean = b.debug.map setting.boolean

section

variable {α β : Type} {check : α → Except Complaint β} {field other patch : Option α}
  {default b : β}

theorem checked_eq_getD : checked field check default = (field.map check).getD (.ok default) := by
  cases field <;> rfl

theorem isSome_of_restated (h : field.map check = other.map check) :
    field.isSome = other.isSome := by
  rw [← Option.isSome_map, h, Option.isSome_map]

theorem restated_orElse (h : field.map check = other.map check) :
    (patch <|> field).map check = (patch <|> other).map check := by
  cases patch with
  | none => simpa using h
  | some a => rfl

theorem eq_default_of_checked (h : checked field check default = .ok b)
    (hno : field.isSome ≠ true) : b = default := by
  cases field with
  | none => exact (Except.ok.inj h).symm
  | some a => exact absurd rfl hno

/-- What a check has made of a field can stand for it, where it is left as it is. -/
theorem restated_of_checked {again : α} (h : checked field check default = .ok b)
    (hagain : field.isSome = true → check again = .ok b) :
    (if field.isSome then some again else none).map check = field.map check := by
  cases field with
  | none => rfl
  | some a =>
    have ha : check a = .ok b := h
    simp [ha, hagain rfl]

end

section

variable {setting : Setting} {a b patch : Draft}

theorem Restates.gives (h : a.Restates setting b) : a.gives = b.gives := by
  funext field
  cases field with
  | paths => exact isSome_of_restated h.paths
  | censor => exact congrArg Option.isSome h.censor
  | output => exact isSome_of_restated h.output
  | strict => exact isSome_of_restated h.strict
  | remove => exact isSome_of_restated h.remove
  | debug => exact isSome_of_restated h.debug

/-- Drafts that say the same are checked alike, with the same policy or the same complaints. -/
theorem Restates.check (h : a.Restates setting b) : a.check setting = b.check setting := by
  simp only [Draft.check, checked_eq_getD, h.paths, h.censor, h.output, h.strict, h.remove, h.debug,
    h.gives]

theorem Restates.merge (h : a.Restates setting b) :
    (a.merge patch).Restates setting (b.merge patch) where
  paths := restated_orElse h.paths
  censor := congrArg (patch.censor <|> ·) h.censor
  output := restated_orElse h.output
  strict := restated_orElse h.strict
  remove := restated_orElse h.remove
  debug := restated_orElse h.debug

theorem Restates.later (h : a.Restates setting b) (debugDefault : Bool) :
    a.Restates { setting with debugDefault } b :=
  ⟨h.paths, h.censor, h.output, h.strict, h.remove, h.debug⟩

theorem gives_merge (field : Field) :
    (a.merge patch).gives field = true ↔ a.gives field = true ∨ patch.gives field = true := by
  cases field <;> simp [gives, Draft.merge, or_comm]

end

/-! ## What a policy carries -/

section

variable {draft : Draft} {setting : Setting} {policy : Policy}

theorem checkPaths_indexed {paths : List String}
    (h : ∀ path ∈ paths, Path.accepts path = true) :
    checkPaths (.node 0 (.tuple .plain) none none (indexed (paths.map Value.text))) =
      .ok paths := by
  refine checkPaths_eq_ok.mpr ⟨.listed ?_, fun path mem => Path.check_isOk_iff.mpr (h path mem)⟩
  have hlists := Value.Lists.tuple 0 .plain none none (indexed (paths.map Value.text))
  rwa [Value.map_snd_indexed] at hlists

theorem checkOutput_outputRequest (output : Output) :
    checkOutput (Policy.outputRequest output) = .ok output := by
  cases output <;> rfl

theorem contains_given (h : draft.check setting = .ok policy) (field : Field) :
    policy.given.contains field = draft.gives field := by
  have hall : field ∈ Field.all := by cases field <;> decide
  obtain ⟨-, -, -, -, -, -, hgiven⟩ := check_eq_ok.mp h
  rw [← hgiven, Bool.eq_iff_iff, List.contains_iff_mem, List.mem_filter]
  simp [hall]

theorem restates_toDraft (h : draft.check setting = .ok policy) :
    policy.toDraft.Restates setting draft := by
  obtain ⟨hpaths, hcensor, houtput, hstrict, hremove, hdebug, -⟩ := check_eq_ok.mp h
  have hgiven := contains_given h
  constructor
  · simp only [Policy.toDraft, hgiven]
    exact restated_of_checked hpaths fun _ => checkPaths_indexed (accepts_of_check h)
  · simp only [Policy.toDraft, hgiven, gives]
    cases hdraft : draft.censor with
    | none => rfl
    | some censor =>
      rw [hdraft] at hcensor
      exact congrArg some hcensor.symm
  · simp only [Policy.toDraft, hgiven]
    exact restated_of_checked houtput fun _ => checkOutput_outputRequest policy.output
  · simp only [Policy.toDraft, hgiven]
    exact restated_of_checked hstrict fun _ => setting.boolean_bool _
  · simp only [Policy.toDraft, hgiven]
    exact restated_of_checked hremove fun _ => setting.boolean_bool _
  · simp only [Policy.toDraft, hgiven]
    exact restated_of_checked hdebug fun _ => setting.boolean_bool _

end

/-! ## Several overrides -/

/-- A draft with the fields of further drafts put over its own, one draft after another. -/
def mergeAll (base : Draft) (overrides : List Draft) : Draft := overrides.foldl merge base

theorem gives_mergeAll {base : Draft} {overrides : List Draft} (field : Field) :
    (base.mergeAll overrides).gives field = true ↔
      base.gives field = true ∨ ∃ patch ∈ overrides, patch.gives field = true := by
  induction overrides generalizing base with
  | nil => simp [mergeAll]
  | cons patch rest ih =>
    have hrest := @ih (base.merge patch)
    rw [gives_merge, or_assoc] at hrest
    simpa [mergeAll] using hrest

end Draft

def Policy.HasDefault (debugDefault : Bool) (policy : Policy) : Field → Prop
  | .paths => policy.paths = []
  | .censor => policy.censor = .literal Draft.defaultReplacement
  | .output => policy.output = .text
  | .strict => policy.strict = true
  | .remove => policy.remove = false
  | .debug => policy.debug = debugDefault

theorem Draft.hasDefault_of_check {draft : Draft} {setting : Setting} {policy : Policy}
    (h : draft.check setting = .ok policy) {field : Field} (hno : draft.gives field ≠ true) :
    policy.HasDefault setting.debugDefault field := by
  obtain ⟨hpaths, hcensor, houtput, hstrict, hremove, hdebug, -⟩ := check_eq_ok.mp h
  cases field with
  | paths => exact eq_default_of_checked hpaths hno
  | censor =>
    have hnone : draft.censor = none := by simpa [gives] using hno
    rw [hnone] at hcensor
    exact hcensor.symm
  | output => exact eq_default_of_checked houtput hno
  | strict => exact eq_default_of_checked hstrict hno
  | remove => exact eq_default_of_checked hremove hno
  | debug => exact eq_default_of_checked hdebug hno

namespace Engine

/-- The engine at the end of a chain of derivations, each from the policy of the one before. -/
def deriveAll (setting : Setting) (engine : Engine) : List Draft → Except Failure Engine
  | [] => .ok engine
  | overrides :: rest => do
    (← derive setting engine.policy overrides).deriveAll setting rest

variable {setting : Setting} {base : Draft} {overrides : List Draft} {engine last : Engine}

/-- A derivation has the outcome of the draft behind the policy with the same overrides, whatever
debugging is set to by default since. -/
theorem derive_eq_ofDraft (h : base.check setting = .ok engine.policy) (later : Bool)
    (patch : Draft) : derive { setting with debugDefault := later } engine.policy patch =
      ofDraft { setting with debugDefault := later } base patch := by
  rw [derive, ofDraft, ofDraft, ((Draft.restates_toDraft h).later later).merge.check]

theorem check_mergeAll (h : base.check setting = .ok engine.policy)
    (hlast : engine.deriveAll setting overrides = .ok last) :
    (base.mergeAll overrides).check setting = .ok last.policy := by
  induction overrides generalizing base engine with
  | nil =>
    obtain rfl := Except.ok.inj hlast
    exact h
  | cons patch rest ih =>
    -- one step later the draft behind the policy is the one merged with the first overrides
    rw [deriveAll, derive_eq_ofDraft h setting.debugDefault] at hlast
    cases hnext : ofDraft setting base patch with
    | error failure =>
      rw [hnext] at hlast
      cases hlast
    | ok next =>
      rw [hnext] at hlast
      exact ih (ofDraft_eq_ok.mp hnext) hlast

/-- As long as no derivation fails, the engine at the end of a chain is the one of all its drafts
merged. It counts as given the fields that any of them gives, and the others have their defaults. A
further derivation has the outcome of merging one draft more, be it an engine or a failure. -/
theorem deriveAll_merges
    (h : configure setting (.fields base {}) = .ok engine)
    (hlast : engine.deriveAll setting overrides = .ok last) :
    configure setting (.fields (base.mergeAll overrides) {}) = .ok last ∧
      (∀ field, field ∈ last.policy.given ↔
        base.gives field = true ∨ ∃ patch ∈ overrides, patch.gives field = true) ∧
      (∀ field, field ∉ last.policy.given → last.policy.HasDefault setting.debugDefault field) ∧
      ∀ (later : Bool) patch, derive { setting with debugDefault := later } last.policy patch =
        configure { setting with debugDefault := later }
          (.fields ((base.mergeAll overrides).merge patch) {}) := by
  have hbase : base.check setting = .ok engine.policy := ofDraft_eq_ok.mp h
  have hmerged := check_mergeAll hbase hlast
  have hgiven : ∀ field, field ∈ last.policy.given ↔
      (base.mergeAll overrides).gives field = true := fun field => by
    rw [← Draft.contains_given hmerged, List.contains_iff_mem]
  refine ⟨ofDraft_eq_ok.mpr hmerged, fun field => ?_, fun field hno => ?_, fun later patch => ?_⟩
  · rw [hgiven, Draft.gives_mergeAll]
  · rw [hgiven] at hno
    exact Draft.hasDefault_of_check hmerged hno
  · exact derive_eq_ofDraft hmerged later patch

end Engine

namespace Sample

/-- Gives a path, and asks for debugging by a word. -/
def seed : Draft where
  paths := some (.list 0 [.text "a.*"])
  debug := some (.text "Yes")

def seedling : Engine := ⟨{
  paths := ["a.*"], censor := .literal Draft.defaultReplacement, output := .text, strict := true
  remove := false, debug := true, given := [.paths, .debug] }⟩

/-- Takes strictness away by a number, and then the path. -/
def grafts : List Draft := [
  { strict := some (.atom (.int 0)) },
  { paths := some .null, remove := some (.text "on") }]

def grafted : Engine := ⟨{
  paths := [], censor := .literal Draft.defaultReplacement, output := .text, strict := false
  remove := true, debug := true, given := [.paths, .strict, .remove, .debug] }⟩

end Sample

/-- Two derivations, and what a third one would be: with a word that is no boolean it fails in the
same way as the merged fields do. -/
theorem Engine.deriveAll_merges_grafts :
    configure (.lenient false) (.fields Sample.seed {}) = .ok Sample.seedling ∧
      Sample.seedling.deriveAll (.lenient false) Sample.grafts = .ok Sample.grafted ∧
      configure (.lenient false) (.fields (Sample.seed.mergeAll Sample.grafts) {}) =
        .ok Sample.grafted ∧
      Sample.grafted.policy.HasDefault false .output ∧
      derive (.lenient true) Sample.grafted.policy { remove := some (.text "maybe") } =
        configure (.lenient true) (.fields ((Sample.seed.mergeAll Sample.grafts).merge
          { remove := some (.text "maybe") }) {}) := by
  have hseed : configure (.lenient false) (.fields Sample.seed {}) = .ok Sample.seedling := by cbv
  have hgrafts : Sample.seedling.deriveAll (.lenient false) Sample.grafts = .ok Sample.grafted := by
    cbv
  obtain ⟨hmerged, _, hdefault, hderive⟩ := deriveAll_merges hseed hgrafts
  exact ⟨hseed, hgrafts, hmerged, hdefault .output (by decide), hderive true _⟩

end Redaction
