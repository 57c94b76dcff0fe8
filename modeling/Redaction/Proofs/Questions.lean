import Redaction.Proofs.Copying
import Redaction.Proofs.Simultaneity

/-!
# What a call asks about

What the paths of a call ask, and where they lead, does not depend on the identities and snapshots
of containers, nor on the class of the root. So a value can be followed by its core, the content
that a live result made of it would have, through any number of paths: duplicating, rebuilding and
redacting all commute with taking the core.
-/

namespace Redaction

/-- The question about the content of the value. -/
def Consultation.content (question : Consultation) : Consultation :=
  ⟨question.value.content, question.path⟩

theorem Censor.recorded_map (censor : Censor) (questions : List Consultation) :
    (censor.recorded questions).map Consultation.content =
      censor.recorded (questions.map Consultation.content) := by
  cases censor <;> rfl

theorem Shape.rebuilt_rebuilt (shape : Shape) : shape.rebuilt.rebuilt = shape.rebuilt := by
  cases shape with
  | mapping form => cases form <;> rfl
  | sequence form => cases form <;> rfl
  | tuple form | view => rfl

theorem Shape.rebuiltTag_rebuilt (shape : Shape) (tag : Option Value) :
    shape.rebuilt.rebuiltTag (shape.rebuiltTag tag) = shape.rebuiltTag tag := by
  cases shape with
  | mapping form => cases form <;> rfl
  | sequence form => cases form <;> rfl
  | tuple form | view => rfl

namespace Value

variable {u v : Value}

theorem content_content (v : Value) : v.content.content = v.content := likeness_likeness _ _ v

structure Mirrors (u v : Value) : Prop where
  kind : u.kind = v.kind
  isMissing : u.isMissing = v.isMissing
  children : u.children = v.children.map fun slot => (slot.1, slot.2.content)

theorem mirrors_content (v : Value) : v.content.Mirrors v :=
  ⟨kind_content v, isMissing_likeness false v, children_likeness false v⟩

namespace Mirrors

theorem slot? (h : u.Mirrors v) (segment : String) : u.slot? segment =
    (v.slot? segment).map fun found => found.map fun slot => (slot.1, slot.2.content) := by
  simp only [Value.slot?, h.children, h.kind, Slots.get?_map]
  cases Slots.get? (Key.text segment) v.children with
  | some child => rfl
  | none =>
    by_cases ht : v.kind.isTraversable = true
    · simp only [Option.map_none, ht, if_true]
      cases Path.index? segment with
      | error failure => rfl
      | ok index =>
        cases index with
        | none => rfl
        | some i =>
          simp only [Except.map, Option.bind_some]
          cases Slots.get? (Key.index i) v.children <;> rfl
    · simp only [Option.map_none, ht]
      rfl

end Mirrors

theorem walk_content (v : Value) (segments : List String) :
    v.content.walk segments = (v.walk segments).map (Option.map content) := by
  induction segments generalizing v with
  | nil => rfl
  | cons segment rest ih =>
    simp only [walk, (mirrors_content v).slot?]
    cases v.slot? segment with
    | error failure => rfl
    | ok found =>
      cases found with
      | none => rfl
      | some slot => exact ih slot.2

theorem filter_content (found : Option Value) :
    (found.map content).filter (fun x => !x.isMissing) =
      (found.filter fun x => !x.isMissing).map content := by
  cases found with
  | none => rfl
  | some u =>
    simp only [Option.map_some, Option.filter_some, isMissing_likeness]
    split <;> rfl

theorem find?_content (v : Value) (segments : List String) :
    v.content.find? segments = (v.find? segments).map (Option.map content) := by
  rw [find?, find?, walk_content]
  cases v.walk segments with
  | error failure => rfl
  | ok found => exact congrArg Except.ok (filter_content found)

end Value

/-- What would be replaced in the content of a branch is the content of what would be in the
branch. -/
theorem Run.affected?_content (branch : Value) (suffix : List String) (last : String) :
    affected? branch.content suffix last =
      (affected? branch suffix last).map (Option.map Value.content) := by
  simp only [affected?, Value.find?_content]
  cases branch.find? suffix with
  | error failure => rfl
  | ok found =>
    cases found with
    | none => rfl
    | some container =>
      simp only [Except.map, Option.map_some, Value.kind_content, Value.find?_content]
      split
      · rfl
      · split <;> rfl

namespace Value

variable {u v : Value} {segments : List String} {answer : Value → String → Value}

namespace Mirrors

theorem walk_cons (h : u.Mirrors v) (segment : String) (rest : List String) :
    u.walk (segment :: rest) = (v.walk (segment :: rest)).map (Option.map content) := by
  simp only [walk, h.slot?]
  cases v.slot? segment with
  | error failure => rfl
  | ok found =>
    cases found with
    | none => rfl
    | some slot => exact walk_content slot.2 rest

theorem find? (h : u.Mirrors v) (hsegments : segments ≠ []) :
    u.find? segments = (v.find? segments).map (Option.map content) := by
  obtain ⟨segment, rest, rfl⟩ := List.exists_cons_of_ne_nil hsegments
  rw [Value.find?, Value.find?, h.walk_cons]
  cases v.walk (segment :: rest) with
  | error failure => rfl
  | ok found => exact congrArg Except.ok (filter_content found)

/-- The first wildcard of a path is met at containers that mirror one another. -/
theorem wildcardAt? (h : u.Mirrors v) (segments : List String) :
    (u.wildcardAt? segments = none ∧ v.wildcardAt? segments = none) ∨
      ∃ a b, u.wildcardAt? segments = some a ∧ v.wildcardAt? segments = some b ∧ a.Mirrors b := by
  unfold Value.wildcardAt?
  by_cases hsegments : segments.takeWhile (· ≠ Path.wildcard) = []
  · rw [hsegments]
    have hfound : ∀ x : Value, (x.find? []).toOption.join =
        if x.isMissing then none else some x := by
      intro x
      simp only [Value.find?, walk, Except.map, Except.toOption, Option.join_some,
        Option.filter_some]
      cases x.isMissing <;> rfl
    rw [hfound, hfound, h.isMissing]
    split
    · exact .inl ⟨rfl, rfl⟩
    · exact .inr ⟨u, v, rfl, rfl, h⟩
  · rw [h.find? hsegments]
    cases v.find? (segments.takeWhile (· ≠ Path.wildcard)) with
    | error failure => exact .inl ⟨rfl, rfl⟩
    | ok found =>
      cases found with
      | none => exact .inl ⟨rfl, rfl⟩
      | some b => exact .inr ⟨b.content, b, rfl, rfl, mirrors_content b⟩

theorem labels (h : u.Mirrors v) (segments : List String) :
    u.labels segments = v.labels segments := by
  rcases h.wildcardAt? segments with ⟨hu, hv⟩ | ⟨a, b, hu, hv, hab⟩
  · simp only [Value.labels, hu, hv]
  · have hkeys : a.keys = b.keys := by
      rw [keys, keys, hab.children, List.map_map]
      rfl
    simp only [Value.labels, hu, hv, Option.elim_some, hkeys]

/-- The same places are asked about, and what is asked about them has the same content. -/
theorem asked? (h : u.Mirrors v) (hsegments : segments ≠ []) (l : Option Key) :
    u.asked? segments l = (v.asked? segments l).map content := by
  cases l with
  | none =>
    rw [Value.asked?, Value.asked?, h.find? hsegments]
    cases v.find? segments with
    | error failure => rfl
    | ok found => cases found <;> rfl
  | some k =>
    rcases h.wildcardAt? segments with ⟨hu, hv⟩ | ⟨a, b, hu, hv, hab⟩
    · simp only [Value.asked?, hu, hv]
      rfl
    · simp only [Value.asked?, hu, hv, Option.bind_some, hab.children, Slots.get?_map]
      cases Slots.get? k b.children with
      | none => rfl
      | some branch =>
        simp only [Option.map_some, Option.bind_some, Run.affected?_content]
        split
        · rfl
        · rename_i last _
          cases Run.affected? branch
            ((segments.dropWhile (· ≠ Path.wildcard)).drop 1).dropLast last with
          | error failure => rfl
          | ok found => cases found <;> rfl

theorem answersTo (h : u.Mirrors v) (hsegments : segments ≠ []) (path : String) :
    u.answersTo answer path segments = v.answersTo answer path segments := by
  funext l
  rw [Value.answersTo, Value.answersTo, h.asked? hsegments]
  cases v.asked? segments l with
  | none => rfl
  | some x => rw [Option.map_some, Option.getD_some, Option.getD_some, content_content]

theorem asks (h : u.Mirrors v) (path : String) (segments : List String) :
    u.asks path segments = (v.asks path segments).map Consultation.content := by
  by_cases hsegments : segments = []
  · subst hsegments
    rfl
  · rw [Value.asks, Value.asks, h.labels, List.map_filterMap]
    refine List.filterMap_congr fun l _ => ?_
    rw [h.asked? hsegments]
    cases v.asked? segments l <;> rfl

end Mirrors

/-! ## Cores -/

section

variable {snapshot : Value} {i : Ident} {strides : List Stride} {x : Option Key → Value}
  {path : CompiledPath} {paths : List CompiledPath}

/-- The content that a live result made of the value has: its root is one that can be restored. -/
def core (v : Value) : Value := v.content.restorable .null 0

theorem restorable_restorable (v s t : Value) (i j : Ident) :
    (v.restorable s i).restorable t j = v.restorable t j := by
  cases v with
  | scalar x => rfl
  | node id shape tag old slots =>
    simp only [restorable, Shape.rebuilt_rebuilt, Shape.rebuiltTag_rebuilt]

theorem kind_restorable (v snapshot : Value) (i : Ident) :
    (v.restorable snapshot i).kind = v.kind := by
  cases v with
  | scalar s => rfl
  | node id shape tag old slots => exact Shape.kind_rebuilt shape

theorem isMissing_restorable (v snapshot : Value) (i : Ident) :
    (v.restorable snapshot i).isMissing = v.isMissing := by
  cases v <;> rfl

theorem children_restorable (v snapshot : Value) (i : Ident) :
    (v.restorable snapshot i).children = v.children := by
  rw [children, children, kind_restorable]
  cases v <;> rfl

theorem mirrors_core (v : Value) : v.core.Mirrors v where
  kind := (kind_restorable _ _ _).trans (kind_content v)
  isMissing := (isMissing_restorable _ _ _).trans (isMissing_likeness false v)
  children := (children_restorable _ _ _).trans (children_likeness false v)

theorem core_content (v : Value) : v.content.core = v.core := by
  rw [core, content_content]
  rfl

theorem content_core (h : v.kind.isTraversable = true) : v.core.content = v.core := by
  rw [core, content_restorable (kind_content v ▸ h), content_content]

theorem core_core (h : v.kind.isTraversable = true) : v.core.core = v.core := by
  rw [core, content_core h, core, restorable_restorable]

theorem withSlots_restorable (f : Key → Value → Option Value) :
    (v.restorable snapshot i).withSlots f = (v.withSlots f).restorable snapshot i := by
  cases v with
  | scalar s => rfl
  | node id shape tag old slots => simp only [restorable, withSlots, Shape.kind_rebuilt]

theorem redactAlong_restorable : (v.restorable snapshot i).redactAlong strides x =
    (v.redactAlong strides x).restorable snapshot i := by
  have hleads : ∀ (stride : Stride) k, stride.leads (v.restorable snapshot i) k =
      stride.leads v k := by
    intro stride k
    rw [Stride.leads, Stride.leads, Stride.finds?_map (congrArg _ (kind_restorable v snapshot i))
      ((children_restorable v snapshot i).trans (List.map_id _).symm) fun _ _ => rfl]
  cases strides with
  | nil => rfl
  | cons stride rest =>
    cases rest with
    | nil => simp only [redactAlong, hleads, kind_restorable, withSlots_restorable]
    | cons next rest => simp only [redactAlong, hleads, withSlots_restorable]

theorem core_redactAlong (hx : ∀ l, (x l).kind.isTraversable = false) :
    (v.redactAlong strides x).core = v.core.redactAlong strides x := by
  rw [core, content_redactAlong hx, core, redactAlong_restorable]

variable (hx : ∀ v text, (answer v text).kind.isTraversable = false)

include hx

theorem core_redactBy : (v.redactBy answer path).core = v.core.redactBy answer path := by
  have hanswers : ∀ l, (v.answersTo answer path.text path.segments l).kind.isTraversable = false :=
    fun l => hx _ _
  rw [redactBy, core_redactAlong hanswers, redactBy]
  by_cases hsegments : path.segments = []
  · rw [hsegments]
    rfl
  · rw [(mirrors_core v).answersTo hsegments]

theorem core_redactAllBy :
    (v.redactAllBy answer paths).core = v.core.redactAllBy answer paths := by
  induction paths generalizing v with
  | nil => rfl
  | cons path rest ih => rw [redactAllBy_cons, redactAllBy_cons, ih, core_redactBy hx]

theorem asksAll_core : v.core.asksAll answer paths =
    (v.asksAll answer paths).map Consultation.content := by
  induction paths generalizing v with
  | nil => rfl
  | cons path rest ih =>
    rw [asksAll, asksAll, (mirrors_core v).asks, ← core_redactBy hx, ih, List.map_append]

theorem everywhere_redactAllBy {p : Value → Bool}
    (hp : ∀ v f, p v = true → p (v.withSlots f) = true) (hv : v.everywhere p = true) :
    (v.redactAllBy answer paths).everywhere p = true := by
  induction paths generalizing v with
  | nil => exact hv
  | cons path rest ih => exact ih (everywhere_redactAlong (fun _ => hx _ _) hp hv)

end

end Value

end Redaction
