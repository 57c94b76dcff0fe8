import Mathlib
import Redaction.Engine

/-!
# Drafts and their policies

A draft becomes a policy if each field that it gives is usable, and otherwise there is a complaint
about every field that is not. The words about paths follow a precedence: that they are a list, that
all items are texts, and only then the first of them that is no path. `Draft.Usable` and
`Draft.Rejected` say what is usable, and in which words all else is rejected, without the checks.

Main statements: `Draft.usable_iff`, `Draft.rejected_iff` and `Draft.check_eq_ok`.
-/

namespace Redaction

/-! ## Usable fields -/

inductive Value.Lists : Value → List Value → Prop
  | list (id : Ident) (tag snapshot : Option Value) (slots : List Slot) :
    Lists (.node id (.sequence .plain) tag snapshot slots) (slots.map Prod.snd)
  | tuple (id : Ident) (form : TupleForm) (tag snapshot : Option Value) (slots : List Slot) :
    Lists (.node id (.tuple form) tag snapshot slots) (slots.map Prod.snd)

/-- The value gives these paths: it lists their texts, or it is absent and they are none. -/
inductive Value.GivesPaths : Value → List String → Prop
  | none : GivesPaths .null []
  | listed {v : Value} {texts : List String} (h : v.Lists (texts.map .text)) : GivesPaths v texts

inductive Value.MisgivesPaths (v : Value) : String → Prop
  | unlisted (hnull : v ≠ .null) (h : ∀ items, ¬v.Lists items) :
    MisgivesPaths v "paths must be a list"
  | item {items : List Value} {item : Value} (h : v.Lists items) (hmem : item ∈ items)
    (hitem : ∀ text, item ≠ .text text) : MisgivesPaths v "Paths must be (non-empty) strings"
  | path {before after : List String} {path : String} {failure : Failure}
    (h : v.Lists ((before ++ path :: after).map .text))
    (hbefore : ∀ text ∈ before, ∃ segments, Path.check text = .ok segments)
    (hpath : Path.check path = .error failure) : MisgivesPaths v failure.message

theorem Path.check_isOk_iff {path : String} :
    (∃ segments, check path = .ok segments) ↔ accepts path = true := by
  rw [check]
  split <;> simp_all

namespace Draft

/-- The draft does not give the field, or gives a value that can be used for it. -/
def Usable (setting : Setting) (draft : Draft) : Field → Prop
  | .paths => ∀ v ∈ draft.paths, ∃ texts, v.GivesPaths texts ∧
      ∀ text ∈ texts, ∃ segments, Path.check text = .ok segments
  | .censor => True
  | .output => ∀ request ∈ draft.output,
      (∃ b, request = .value (.atom (.bool b))) ∨ ∃ f, request = .writer f
  | .strict => ∀ v ∈ draft.strict, ∃ b, setting.boolean v = .ok b
  | .remove => ∀ v ∈ draft.remove, ∃ b, setting.boolean v = .ok b
  | .debug => ∀ v ∈ draft.debug, ∃ b, setting.boolean v = .ok b

inductive Rejected (setting : Setting) (draft : Draft) : Field → String → Prop
  | paths {v : Value} {text : String} (hgiven : v ∈ draft.paths) (h : v.MisgivesPaths text) :
    Rejected setting draft .paths text
  | output {request : OutputRequest} (hgiven : request ∈ draft.output)
    (hvalue : ∀ b, request ≠ .value (.atom (.bool b))) (hwriter : ∀ f, request ≠ .writer f) :
    Rejected setting draft .output "serialize must be callable or a boolean"
  | strict {v : Value} {c : Complaint} (hgiven : v ∈ draft.strict)
    (h : setting.boolean v = .error c) : Rejected setting draft .strict c.message
  | remove {v : Value} {c : Complaint} (hgiven : v ∈ draft.remove)
    (h : setting.boolean v = .error c) : Rejected setting draft .remove c.message
  | debug {v : Value} {c : Complaint} (hgiven : v ∈ draft.debug)
    (h : setting.boolean v = .error c) : Rejected setting draft .debug c.message

/-! ## The check of the paths -/

section

variable {v : Value} {items : List Value} {texts : List String} {path : String}

theorem items?_eq_some : items? v = some items ↔ v.Lists items := by
  constructor
  · intro h
    unfold items? at h
    split at h
    · obtain rfl := Option.some.inj h
      exact .list _ _ _ _
    · obtain rfl := Option.some.inj h
      exact .tuple _ _ _ _ _
    · cases h
  · intro h
    cases h <;> rfl

theorem text?_eq_some {s : String} : text? v = some s ↔ v = .text s := by
  unfold text?
  split
  · simp [Value.text, Value.atom]
  · rename_i hno
    constructor
    · intro h
      cases h
    · intro h
      exact (hno s h).elim

theorem mapM_text?_eq_some : items.mapM text? = some texts ↔ items = texts.map .text := by
  induction items generalizing texts with
  | nil => cases texts <;> simp
  | cons item rest ih =>
    cases texts with
    | nil => cases h : text? item <;> cases hrest : rest.mapM text? <;> simp [h, hrest]
    | cons text others =>
      rw [List.map_cons, List.cons.injEq, ← text?_eq_some, ← ih]
      cases h : text? item <;> cases hrest : rest.mapM text? <;> simp [h, hrest]

theorem mapM_text?_eq_none :
    items.mapM text? = none ↔ ∃ item ∈ items, ∀ text, item ≠ .text text := by
  induction items with
  | nil => simp
  | cons item rest ih =>
    cases h : text? item with
    | none =>
      have hitem : ∀ text, item ≠ .text text := fun text heq => by
        rw [text?_eq_some.mpr heq] at h
        cases h
      simpa [h] using .inl hitem
    | some text =>
      obtain rfl := text?_eq_some.mp h
      have hitem : ¬∀ other, Value.text text ≠ .text other := fun hno => hno text rfl
      cases hrest : rest.mapM text? with
      | none => simp [h, hrest, ih.mp hrest]
      | some texts => simp [h, hrest, hitem, ← ih]

theorem checkPaths_unlisted (hnull : v ≠ .null) (h : ∀ items, ¬v.Lists items) :
    checkPaths v = .error .pathsNotList := by
  have hnone : items? v = none := by
    cases hitems : items? v with
    | none => rfl
    | some items => exact absurd (items?_eq_some.mp hitems) (h items)
  unfold checkPaths
  split
  · exact absurd rfl hnull
  · rw [hnone]

theorem checkPaths_of_lists (h : v.Lists items) : checkPaths v =
    match items.mapM text? with
    | none => .error .pathNotText
    | some texts =>
      match texts.find? fun path => !Path.accepts path with
      | some path => .error (.invalidPath path)
      | none => .ok texts := by
  cases h <;> rfl

theorem checkPaths_item {item : Value} (h : v.Lists items) (hmem : item ∈ items)
    (hitem : ∀ text, item ≠ .text text) : checkPaths v = .error .pathNotText := by
  rw [checkPaths_of_lists h, mapM_text?_eq_none.mpr ⟨item, hmem, hitem⟩]

theorem checkPaths_texts (h : v.Lists (texts.map .text)) : checkPaths v =
    match texts.find? fun path => !Path.accepts path with
    | some path => .error (.invalidPath path)
    | none => .ok texts := by
  rw [checkPaths_of_lists h, mapM_text?_eq_some.mpr rfl]

/-- A value is absent, no list, a list with an item that is no text, or a list of texts. -/
theorem paths_cases (v : Value) :
    v = .null ∨ (v ≠ .null ∧ ∀ items, ¬v.Lists items) ∨
      (∃ items, v.Lists items ∧ ∃ item ∈ items, ∀ text, item ≠ .text text) ∨
      ∃ texts : List String, v.Lists (texts.map .text) := by
  by_cases hnull : v = .null
  · exact .inl hnull
  cases hitems : items? v with
  | none =>
    refine .inr (.inl ⟨hnull, fun items hlists => ?_⟩)
    rw [items?_eq_some.mpr hlists] at hitems
    cases hitems
  | some items =>
    have hlists := items?_eq_some.mp hitems
    cases htexts : items.mapM text? with
    | none => exact .inr (.inr (.inl ⟨items, hlists, mapM_text?_eq_none.mp htexts⟩))
    | some texts => exact .inr (.inr (.inr ⟨texts, mapM_text?_eq_some.mp htexts ▸ hlists⟩))

theorem checkPaths_eq_ok : checkPaths v = .ok texts ↔
    v.GivesPaths texts ∧ ∀ text ∈ texts, ∃ segments, Path.check text = .ok segments := by
  simp only [Path.check_isOk_iff]
  constructor
  · intro h
    rcases paths_cases v with rfl | ⟨hnull, hno⟩ | ⟨_, hlists, _, hmem, hitem⟩ | ⟨others, hlists⟩
    · obtain rfl := Except.ok.inj h
      exact ⟨.none, by simp⟩
    · rw [checkPaths_unlisted hnull hno] at h
      cases h
    · rw [checkPaths_item hlists hmem hitem] at h
      cases h
    · rw [checkPaths_texts hlists] at h
      split at h
      · cases h
      · rename_i hnone
        obtain rfl := Except.ok.inj h
        exact ⟨.listed hlists, by simpa using hnone⟩
  · rintro ⟨hgives, haccepts⟩
    cases hgives with
    | none => rfl
    | listed hlists =>
      have hnone : texts.find? (fun path => !Path.accepts path) = none := by
        simpa using haccepts
      rw [checkPaths_texts hlists, hnone]

theorem misgivesPaths_iff {words : String} :
    v.MisgivesPaths words ↔ ∃ c, checkPaths v = .error c ∧ words = c.message := by
  constructor
  · intro h
    cases h with
    | unlisted hnull hno => exact ⟨_, checkPaths_unlisted hnull hno, rfl⟩
    | item hlists hmem hitem => exact ⟨_, checkPaths_item hlists hmem hitem, rfl⟩
    | @path before after path failure hlists hbefore hpath =>
      simp only [Path.check_isOk_iff] at hbefore
      have hrejects : Path.accepts path = false := by
        rw [← Bool.not_eq_true, ← Path.check_isOk_iff, hpath]
        simp
      have hfind : (before ++ path :: after).find? (fun text => !Path.accepts text) =
          some path := by
        rw [List.find?_eq_some_iff_append]
        exact ⟨by simpa using hrejects, before, after, rfl, by simpa using hbefore⟩
      obtain rfl : Failure.invalidPath path = failure := by
        simpa [Path.check, hrejects] using hpath
      exact ⟨.invalidPath path, by rw [checkPaths_texts hlists, hfind], rfl⟩
  · rintro ⟨c, hc, rfl⟩
    rcases paths_cases v with rfl | ⟨hnull, hno⟩ | ⟨_, hlists, _, hmem, hitem⟩ | ⟨texts, hlists⟩
    · cases hc
    · obtain rfl := Except.error.inj ((checkPaths_unlisted hnull hno).symm.trans hc)
      exact .unlisted hnull hno
    · obtain rfl := Except.error.inj ((checkPaths_item hlists hmem hitem).symm.trans hc)
      exact .item hlists hmem hitem
    · rw [checkPaths_texts hlists] at hc
      split at hc
      · rename_i path hfind
        obtain rfl := Except.error.inj hc
        obtain ⟨hrejects, before, after, rfl, hbefore⟩ := List.find?_eq_some_iff_append.mp hfind
        have hpath : Path.check path = .error (.invalidPath path) := by
          simpa [Path.check] using hrejects
        refine .path hlists (fun text mem => Path.check_isOk_iff.mpr ?_) hpath
        simpa using hbefore text mem
      · cases hc

end

/-! ## The check of a draft -/

section

variable {request : OutputRequest} {c : Complaint}

theorem isOk_checkOutput_iff : (∃ output, checkOutput request = .ok output) ↔
    (∃ b, request = .value (.atom (.bool b))) ∨ ∃ f, request = .writer f := by
  constructor
  · rintro ⟨output, h⟩
    unfold checkOutput at h
    split at h
    · exact .inl ⟨true, rfl⟩
    · exact .inl ⟨false, rfl⟩
    · cases h
    · exact .inr ⟨_, rfl⟩
  · rintro (⟨b, rfl⟩ | ⟨f, rfl⟩)
    · cases b <;> exact ⟨_, rfl⟩
    · exact ⟨_, rfl⟩

theorem checkOutput_eq_error : checkOutput request = .error c ↔
    c = .unusableOutput ∧ (∀ b, request ≠ .value (.atom (.bool b))) ∧ ∀ f, request ≠ .writer f := by
  have hisOk : (c = .unusableOutput ∧ (∀ b, request ≠ .value (.atom (.bool b))) ∧
      ∀ f, request ≠ .writer f) ↔
      c = .unusableOutput ∧ ¬∃ output, checkOutput request = .ok output := by
    rw [isOk_checkOutput_iff, not_or, not_exists, not_exists]
  rw [hisOk]
  unfold checkOutput
  split <;> simp [eq_comm]

end

section

variable {α β : Type} {field : Option α} {check : α → Except Complaint β} {default : β}
  {c : Complaint}

/-- What is wrong with a field, if it is given and something is. -/
def fault? (field : Option α) (check : α → Except Complaint β) : Option Complaint :=
  field.bind fun a =>
    match check a with
    | .ok _ => none
    | .error c => some c

theorem complaint_checked :
    complaint (checked field check default) = (fault? field check).toList := by
  cases field with
  | none => rfl
  | some a => cases h : check a <;> simp [checked, fault?, complaint, h]

theorem fault?_eq_none : fault? field check = none ↔ ∀ a ∈ field, ∃ b, check a = .ok b := by
  cases field with
  | none => simp [fault?]
  | some a => cases h : check a <;> simp [fault?, h]

theorem fault?_eq_some : fault? field check = some c ↔ ∃ a ∈ field, check a = .error c := by
  cases field with
  | none => simp [fault?]
  | some a => cases h : check a <;> simp [fault?, h]

theorem fault?_eq_none_iff_checked :
    fault? field check = none ↔ ∃ b, checked field check default = .ok b := by
  rw [fault?_eq_none]
  cases field with
  | none => simp [checked]
  | some a => simp [checked]

end

/-- The complaint about a field of a draft, if there is one. -/
def complaint? (setting : Setting) (draft : Draft) : Field → Option Complaint
  | .paths => fault? draft.paths checkPaths
  | .censor => none
  | .output => fault? draft.output checkOutput
  | .strict => fault? draft.strict setting.boolean
  | .remove => fault? draft.remove setting.boolean
  | .debug => fault? draft.debug setting.boolean

section

variable {draft : Draft} {setting : Setting} {policy : Policy} {complaints : List Complaint}

theorem check_eq_ok : draft.check setting = .ok policy ↔
    checked draft.paths checkPaths [] = .ok policy.paths ∧
      draft.censor.getD (.literal defaultReplacement) = policy.censor ∧
      checked draft.output checkOutput .text = .ok policy.output ∧
      checked draft.strict setting.boolean true = .ok policy.strict ∧
      checked draft.remove setting.boolean false = .ok policy.remove ∧
      checked draft.debug setting.boolean setting.debugDefault = .ok policy.debug ∧
      Field.all.filter draft.gives = policy.given := by
  obtain ⟨paths, censor, output, strict, remove, debug, given⟩ := policy
  unfold check
  constructor
  · intro h
    simp only at h
    split at h
    · rename_i hpaths houtput hstrict hremove hdebug
      rw [Except.ok.injEq, Policy.mk.injEq] at h
      obtain ⟨rfl, rfl, rfl, rfl, rfl, rfl, rfl⟩ := h
      exact ⟨hpaths, rfl, houtput, hstrict, hremove, hdebug, rfl⟩
    · cases h
  · rintro ⟨hpaths, rfl, houtput, hstrict, hremove, hdebug, rfl⟩
    simp only [hpaths, houtput, hstrict, hremove, hdebug]

theorem accepts_of_check (h : draft.check setting = .ok policy) :
    ∀ path ∈ policy.paths, Path.accepts path = true := by
  have hpaths := (check_eq_ok.mp h).1
  cases hdraft : draft.paths with
  | none =>
    rw [hdraft] at hpaths
    rw [← Except.ok.inj hpaths]
    simp
  | some v =>
    rw [hdraft] at hpaths
    exact fun path mem => Path.check_isOk_iff.mp ((checkPaths_eq_ok.mp hpaths).2 path mem)

theorem check_isOk_iff :
    (∃ policy, draft.check setting = .ok policy) ↔
      ∀ field, draft.complaint? setting field = none := by
  constructor
  · rintro ⟨policy, h⟩ field
    obtain ⟨hpaths, -, houtput, hstrict, hremove, hdebug, -⟩ := check_eq_ok.mp h
    cases field with
    | paths => exact fault?_eq_none_iff_checked.mpr ⟨_, hpaths⟩
    | censor => rfl
    | output => exact fault?_eq_none_iff_checked.mpr ⟨_, houtput⟩
    | strict => exact fault?_eq_none_iff_checked.mpr ⟨_, hstrict⟩
    | remove => exact fault?_eq_none_iff_checked.mpr ⟨_, hremove⟩
    | debug => exact fault?_eq_none_iff_checked.mpr ⟨_, hdebug⟩
  · intro h
    obtain ⟨paths, hpaths⟩ := fault?_eq_none_iff_checked.mp (h .paths)
    obtain ⟨output, houtput⟩ := fault?_eq_none_iff_checked.mp (h .output)
    obtain ⟨strict, hstrict⟩ := fault?_eq_none_iff_checked.mp (h .strict)
    obtain ⟨remove, hremove⟩ := fault?_eq_none_iff_checked.mp (h .remove)
    obtain ⟨debug, hdebug⟩ := fault?_eq_none_iff_checked.mp (h .debug)
    exact ⟨⟨paths, _, output, strict, remove, debug, _⟩,
      check_eq_ok.mpr ⟨hpaths, rfl, houtput, hstrict, hremove, hdebug, rfl⟩⟩

theorem check_eq_error (h : draft.check setting = .error complaints) :
    complaints = Field.all.filterMap (draft.complaint? setting) := by
  simp only [check] at h
  split at h
  · cases h
  · rw [List.filterMap_eq_flatMap_toList, ← Except.error.inj h]
    simp only [complaint_checked, Field.all, complaint?, List.flatMap_cons, List.flatMap_nil,
      Option.toList_none, List.nil_append, List.append_nil, List.append_assoc]

theorem usable_iff {field : Field} :
    draft.Usable setting field ↔ draft.complaint? setting field = none := by
  cases field with
  | paths =>
    rw [complaint?, fault?_eq_none]
    simp only [checkPaths_eq_ok]
    rfl
  | censor => exact ⟨fun _ => rfl, fun _ => trivial⟩
  | output =>
    rw [complaint?, fault?_eq_none]
    simp only [isOk_checkOutput_iff]
    rfl
  | strict => exact fault?_eq_none.symm
  | remove => exact fault?_eq_none.symm
  | debug => exact fault?_eq_none.symm

theorem rejected_iff {field : Field} {words : String} : draft.Rejected setting field words ↔
    ∃ c, draft.complaint? setting field = some c ∧ words = c.message := by
  constructor
  · intro h
    cases h with
    | paths hgiven h =>
      obtain ⟨c, hc, rfl⟩ := misgivesPaths_iff.mp h
      exact ⟨c, fault?_eq_some.mpr ⟨_, hgiven, hc⟩, rfl⟩
    | output hgiven hvalue hwriter =>
      have hrejected := checkOutput_eq_error.mpr ⟨rfl, hvalue, hwriter⟩
      exact ⟨_, fault?_eq_some.mpr ⟨_, hgiven, hrejected⟩, rfl⟩
    | strict hgiven h => exact ⟨_, fault?_eq_some.mpr ⟨_, hgiven, h⟩, rfl⟩
    | remove hgiven h => exact ⟨_, fault?_eq_some.mpr ⟨_, hgiven, h⟩, rfl⟩
    | debug hgiven h => exact ⟨_, fault?_eq_some.mpr ⟨_, hgiven, h⟩, rfl⟩
  · rintro ⟨c, hc, rfl⟩
    cases field with
    | paths =>
      obtain ⟨v, hgiven, hv⟩ := fault?_eq_some.mp hc
      exact .paths hgiven (misgivesPaths_iff.mpr ⟨c, hv, rfl⟩)
    | censor => cases hc
    | output =>
      obtain ⟨request, hgiven, hrequest⟩ := fault?_eq_some.mp hc
      obtain ⟨rfl, hvalue, hwriter⟩ := checkOutput_eq_error.mp hrequest
      exact .output hgiven hvalue hwriter
    | strict =>
      obtain ⟨v, hgiven, hv⟩ := fault?_eq_some.mp hc
      exact .strict hgiven hv
    | remove =>
      obtain ⟨v, hgiven, hv⟩ := fault?_eq_some.mp hc
      exact .remove hgiven hv
    | debug =>
      obtain ⟨v, hgiven, hv⟩ := fault?_eq_some.mp hc
      exact .debug hgiven hv

/-- The words in which a field is rejected, if it is. -/
def wording (setting : Setting) (draft : Draft) (field : Field) : String :=
  ((draft.complaint? setting field).map Complaint.message).getD ""

theorem map_message_complaints (fields : List Field) :
    (fields.filterMap (draft.complaint? setting)).map Complaint.message =
      (fields.filter fun field => (draft.complaint? setting field).isSome).map
        (draft.wording setting) := by
  induction fields with
  | nil => rfl
  | cons field rest ih => cases hc : draft.complaint? setting field <;> simp [hc, ih, wording]

end

end Draft

/-! ## The policies of engines -/

namespace Engine

variable {setting : Setting} {draft base overrides : Draft} {policy : Policy} {engine : Engine}

theorem ofDraft_eq_ok : ofDraft setting base overrides = .ok engine ↔
    (base.merge overrides).check setting = .ok engine.policy := by
  unfold ofDraft
  cases (base.merge overrides).check setting with
  | error complaints => simp
  | ok policy =>
    constructor
    · intro h
      rw [← Except.ok.inj h]
    · intro h
      rw [Except.ok.inj h]

end Engine

end Redaction
