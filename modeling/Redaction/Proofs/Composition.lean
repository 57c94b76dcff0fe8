import Redaction.Proofs.ConcretePaths
import Redaction.Proofs.Questions

/-!
# One call after another

A live result can be redacted in turn. Between two calls it is rebuilt, duplicated and thawed again,
but no path can tell: its core is that of the working copy that the first call left. So two calls
give what one call with the paths of both gives, and with one replacement for all places the second
of two equal calls changes nothing.

Main statement: `Engine.run_composes`.
-/

namespace Redaction

theorem Shape.isCopiedWhole_of_rebuilt {shape : Shape}
    (h : shape.rebuilt.isCopiedWhole = true) : shape.isCopiedWhole = true := by
  cases shape with
  | mapping form => cases form <;> first | exact h | rfl
  | sequence form => cases form <;> first | exact h | rfl
  | tuple form | view => exact h

namespace Value

variable {v snapshot : Value} {i : Ident} {f : Key → Value → Option Value} {p : Value → Bool}

theorem thawed_eq_content (h : v.everywhere (fun u => u.kind.isWritable) = true) :
    v.thawed = v.content := by
  induction v using Value.induction with
  | scalar s => rfl
  | node id shape tag snapshot slots _ _ ihSlots =>
    by_cases ht : shape.kind.isTraversable = true
    · obtain ⟨hwritable, hbelow⟩ := (everywhere_node ht).mp h
      have hkind : shape.kind ≠ .tuple := by
        intro htuple
        simp [kind, htuple, Kind.isWritable] at hwritable
      have hslots : likenessSlots true slots = likenessSlots false slots := by
        rw [likenessSlots_eq_map, likenessSlots_eq_map]
        refine List.map_congr_left fun slot mem => ?_
        have hslot : slot.2.likeness true = slot.2.likeness false :=
          ihSlots slot mem (hbelow slot mem)
        rw [hslot]
      rw [thawed, content, likeness_node ht (.inr hkind), likeness_node ht (.inl rfl), hslots]
    · have ht : shape.kind.isTraversable = false := by simpa using ht
      rw [thawed, content, likeness_untraversed ht, likeness_untraversed ht]

theorem everywhere_restorable (hp : p v = true → p (v.restorable snapshot i) = true)
    (h : v.everywhere p = true) : (v.restorable snapshot i).everywhere p = true := by
  cases v with
  | scalar s => rfl
  | node id shape tag old slots =>
    by_cases ht : shape.kind.isTraversable = true
    · obtain ⟨hhere, hslots⟩ := (everywhere_node ht).mp h
      exact (everywhere_node (Shape.kind_rebuilt shape ▸ ht)).mpr ⟨hp hhere, hslots⟩
    · have ht : shape.rebuilt.kind.isTraversable = false := by
        rw [Shape.kind_rebuilt]
        simpa using ht
      exact everywhere_of_not_traversable ht

theorem isWellKeyed_restorable (h : v.isWellKeyed = true) :
    (v.restorable snapshot i).isWellKeyed = true :=
  everywhere_restorable (fun hdiffer => by cases v <;> exact hdiffer) h

theorem keysSurvive_restorable (h : v.keysSurvive = true) :
    (v.restorable snapshot i).keysSurvive = true := by
  cases v with
  | scalar s => rfl
  | node id shape tag old slots =>
    simp only [keysSurvive, Bool.or_eq_true, Bool.not_eq_true'] at h
    simp only [restorable, keysSurvive, Bool.or_eq_true, Bool.not_eq_true']
    refine h.imp_left fun hwhole => ?_
    by_contra hrebuilt
    simp [Shape.isCopiedWhole_of_rebuilt (Bool.eq_true_of_not_eq_false hrebuilt)] at hwhole

theorem keysSurvive_withSlots (h : v.keysSurvive = true) : (v.withSlots f).keysSurvive = true := by
  cases v with
  | scalar s => rfl
  | node id shape tag snapshot slots =>
    simp only [keysSurvive, Bool.or_eq_true, List.all_eq_true] at h
    simp only [withSlots, keysSurvive, Bool.or_eq_true, List.all_eq_true]
    refine h.imp_right fun hkeys slot mem => ?_
    split at mem
    · obtain ⟨old, memOld, hold⟩ := List.mem_filterMap.mp mem
      obtain ⟨_, _, rfl⟩ := Option.map_eq_some_iff.mp hold
      exact hkeys old memOld
    · exact hkeys slot mem

/-- A container that a call can begin with and that holds no tuples. -/
structure IsReusable (v : Value) : Prop where
  kind : v.kind.isTraversable = true
  keys : v.isWellKeyed = true
  keyed : v.isKeyedByValue = true
  thawed : v.thawed = v.content

theorem Editable.isReusable_restorable (h : v.Editable) (hkind : v.kind.isTraversable = true)
    (hkeyed : v.isKeyedByValue = true) : (v.restorable snapshot i).IsReusable where
  kind := kind_restorable v snapshot i ▸ hkind
  keys := isWellKeyed_restorable h.keyed
  keyed := everywhere_restorable keysSurvive_restorable hkeyed
  thawed := thawed_eq_content (everywhere_restorable (fun hw => kind_restorable v snapshot i ▸ hw)
    h.writable)

theorem not_traversable_of_scalar (h : ∃ s, v = .scalar s) : v.kind.isTraversable = false := by
  obtain ⟨s, rfl⟩ := h
  exact isTraversable_scalar s

theorem ids_of_scalar (h : ∃ s, v = .scalar s) : v.ids = [] := by
  obtain ⟨s, rfl⟩ := h
  rfl

theorem Editable.redactAllBy {answer : Value → String → Value} {paths : List CompiledPath}
    (h : v.Editable) (hx : ∀ v text, (answer v text).kind.isTraversable = false)
    (hfresh : ∀ v text, (answer v text).ids = []) : (v.redactAllBy answer paths).Editable := by
  induction paths generalizing v with
  | nil => exact h
  | cons path rest ih =>
    refine ih (h.redactAlong (fun l => hx _ _) fun l id _ hid => ?_)
    rw [answersTo, hfresh] at hid
    cases hid

/-- Once all places hold the replacement, the paths have nothing left to change. -/
theorem redactAll_redactAll {c : Value} {paths : List CompiledPath}
    (hc : c.kind.isTraversable = false) (hkeys : v.isWellKeyed = true)
    (hremove : c.isRemove = false) :
    (v.redactAll (fun _ => c) paths).redactAll (fun _ => c) paths =
      v.redactAll (fun _ => c) paths := by
  have hfilled : ∀ chosen, (v.filled c chosen).redactAll (fun _ => c) paths =
      v.filled c fun position => chosen position || paths.any fun path =>
        v.addresses (Path.strides path.segments) position :=
    fun chosen => redactAll_filled hc hkeys fun hyes => by simp [hremove] at hyes
  have honce := hfilled fun _ => false
  rw [filled_none] at honce
  rw [honce, hfilled]
  simp only [Bool.false_or, Bool.or_self]

end Value

namespace Engine

variable {policy : Policy} {answer : Value → String → Value} {P Q : List String}
  {v r r₁ r₂ : Value} {next next₁ next' : Ident}

/-- A live call as its core shows it. The paths are followed in the core of the thawed input, and
the result can be redacted in turn. -/
theorem run_core (engine : Engine) (hkind : v.kind.isTraversable = true)
    (hkeys : v.isWellKeyed = true) (hkeyed : v.isKeyedByValue = true)
    (hnext : ∀ id ∈ v.ids, id < next)
    (hlive : engine.policy.output = .live) (h : engine.policy.applied.AnswersBy answer)
    (hscalar : ∀ u path, ∃ s, answer u path = .scalar s)
    (hr : (engine.run v next).result = .ok r) :
    r.IsReusable ∧ r.content = v.thawed.core.redactAllBy answer engine.paths ∧
      (engine.run v next).consultations.map Consultation.content =
        engine.policy.applied.recorded (v.thawed.core.asksAll answer engine.paths) := by
  have hx : ∀ u path, (answer u path).kind.isTraversable = false := fun u path =>
    Value.not_traversable_of_scalar (hscalar u path)
  have hnone : ∀ u path, (answer u path).ids = [] := fun u path =>
    Value.ids_of_scalar (hscalar u path)
  obtain ⟨root, snapshot?, n, hclose, hsnapshot, hwritable, hkeyedRoot, hroot, hasked, _⟩ :=
    run_applies hkind hnext hkeyed hkeys h hx (fun u path id hid => by simp [hnone] at hid) hr
  obtain ⟨snapshot, rfl⟩ := Option.ne_none_iff_exists'.mp (hsnapshot.mp hlive)
  simp only [close_live hwritable hkeyedRoot, Except.ok.injEq] at hclose
  have hcore : (v.renew true next).1.core = v.thawed.core := by
    rw [← Value.core_content, Value.content_renew hkeyed]
  have ht := Value.isTraversable_of_isWritable hwritable
  have hworking : (v.renew true next).1.isKeyedByValue = true := by
    rw [← Value.isKeyedByValue_likeness false, ← Value.content, Value.content_renew hkeyed,
      Value.isKeyedByValue_likeness, hkeyed]
  subst hclose
  refine ⟨Value.Editable.isReusable_restorable ?_ ht ?_, ?_, ?_⟩
  · rw [hroot]
    exact (Value.renew_editable hnext hkeyed hkeys).redactAllBy hx hnone
  · rw [hroot]
    exact Value.everywhere_redactAllBy hx (fun u f => Value.keysSurvive_withSlots) hworking
  · rw [Value.content_restorable ht, ← Value.core, hroot, Value.core_redactAllBy hx, hcore]
  · rw [hasked, Censor.recorded_map, ← Value.asksAll_core hx, hcore]

theorem paths_withPaths_append (policy : Policy) (P Q : List String) :
    paths ⟨policy.withPaths (P ++ Q)⟩ = paths ⟨policy.withPaths P⟩ ++ paths ⟨policy.withPaths Q⟩ :=
  List.map_append

/-- Redacting a live result again is redacting once along the paths of both calls: the contents are
the same, and the censor is asked the same questions in the same order. The censor must look at
contents and paths only, and answer with scalars. If it is one scalar for all places, which does not
delete them, the second of two equal calls changes nothing. -/
theorem run_composes (hkind : v.kind.isTraversable = true) (hkeys : v.isWellKeyed = true)
    (hkeyed : v.isKeyedByValue = true) (hlive : policy.output = .live)
    (h : policy.applied.AnswersBy answer) (hscalar : ∀ u path, ∃ s, answer u path = .scalar s)
    (hnext : ∀ id ∈ v.ids, id < next) (hnext₁ : ∀ id ∈ r₁.ids, id < next₁)
    (hnext' : ∀ id ∈ v.ids, id < next')
    (h₁ : (run ⟨policy.withPaths P⟩ v next).result = .ok r₁)
    (h₂ : (run ⟨policy.withPaths Q⟩ r₁ next₁).result = .ok r₂)
    (hr : (run ⟨policy.withPaths (P ++ Q)⟩ v next').result = .ok r) :
    r₂.content = r.content ∧
      (run ⟨policy.withPaths (P ++ Q)⟩ v next').consultations.map Consultation.content =
        ((run ⟨policy.withPaths P⟩ v next).consultations ++
          (run ⟨policy.withPaths Q⟩ r₁ next₁).consultations).map Consultation.content ∧
      ∀ s, policy.applied = .literal (.scalar s) → (Value.scalar s).isRemove = false → Q = P →
        r₂.content = r₁.content := by
  have hx : ∀ u path, (answer u path).kind.isTraversable = false := fun u path =>
    Value.not_traversable_of_scalar (hscalar u path)
  obtain ⟨hreusable, hcontent₁, hasked₁⟩ :=
    run_core ⟨policy.withPaths P⟩ hkind hkeys hkeyed hnext hlive h hscalar h₁
  obtain ⟨_, hcontent₂, hasked₂⟩ := run_core ⟨policy.withPaths Q⟩ hreusable.kind
    hreusable.keys hreusable.keyed hnext₁ hlive h hscalar h₂
  obtain ⟨_, hcontent, hasked⟩ :=
    run_core ⟨policy.withPaths (P ++ Q)⟩ hkind hkeys hkeyed hnext' hlive h hscalar hr
  have hthawed : v.thawed.kind.isTraversable = true := by
    rw [Value.thawed, Value.isTraversable_likeness, hkind]
  -- what the second call works on has the core that the first call left
  have hbetween : r₁.thawed.core =
      v.thawed.core.redactAllBy answer (paths ⟨policy.withPaths P⟩) := by
    rw [hreusable.thawed, hcontent₁, Value.core_redactAllBy hx, Value.core_core hthawed]
  rw [hbetween] at hcontent₂ hasked₂
  rw [paths_withPaths_append] at hcontent hasked
  refine ⟨?_, ?_, fun s hliteral hremove hsame => ?_⟩
  · rw [hcontent₂, hcontent, Value.redactAllBy_append]
  · rw [hasked, List.map_append, hasked₁, hasked₂, Value.asksAll_append, Censor.recorded_append]
    rfl
  · subst hsame
    have hanswer : answer = fun _ _ => .scalar s := by
      funext u path
      rw [hliteral] at h
      exact h u path
    have hcore : v.thawed.core.isWellKeyed = true := by
      refine Value.isWellKeyed_restorable ?_
      rw [Value.content, Value.isWellKeyed_likeness, Value.thawed, Value.isWellKeyed_likeness, hkeys]
    rw [hcontent₂, hcontent₁, hanswer, Value.redactAllBy_blind, Value.redactAllBy_blind,
      Value.redactAll_redactAll (Value.isTraversable_scalar s) hcore hremove]

end Engine

namespace Sample

/-- A mapping that no class makes, with a list and a tuple. -/
def folder : Value := .node 0 (.mapping (.produced { name := "FactoryMap" })) none none
  [(.text "a", .list 1 [.atom (.int 1), .text "x"]),
    (.text "b", .node 2 (.tuple .plain) none none (indexed [.atom (.int 3)]))]

/-- Gives live results with the kinds of what stood there. -/
def kinds : Policy := {
  paths := [], censor := .tellKind, output := .live, strict := true, remove := false, debug := false,
  given := [] }

/-- What is left of the folder with an item of each part redacted. -/
def halfway : Value := .node 9 (.mapping .plain) none (some (folder.renew false 6).1)
  [(.text "a", .list 4 [.text "scalar@a[0]", .text "x"]),
    (.text "b", .list 5 [.text "scalar@b[0]"])]

/-- Crosses out an item of each part, and then one of the parts. -/
def crossing : Engine := ⟨{ kinds with paths := ["*[0]", "b"], censor := .literal (.text "X") }⟩

/-- What is left of the folder with all that crossed out. -/
def crossed : Value := .node 9 (.mapping .plain) none (some (folder.renew false 6).1)
  [(.text "a", .list 4 [.text "X", .text "x"]), (.text "b", .text "X")]

end Sample

theorem Censor.answersBy_tellKind :
    tellKind.AnswersBy fun v path => .text (v.kind.name ++ "@" ++ path) := by
  intro history question next x hx
  obtain rfl := Except.ok.inj hx
  simp only [Value.kind_content]

/-- A second call that redacts a part whose item the first has redacted, and asks about what it
left, and a call that is made twice. -/
theorem Engine.run_composes_folder :
    Sample.folder.kind.isTraversable = true ∧ Sample.folder.isWellKeyed = true ∧
      Sample.folder.isKeyedByValue = true ∧
      (run ⟨Sample.kinds.withPaths ["*[0]"]⟩ Sample.folder 3).result = .ok Sample.halfway ∧
      (∃ r r₂, (run ⟨Sample.kinds.withPaths ["a[*]", "b"]⟩ Sample.halfway 10).result = .ok r₂ ∧
        (run ⟨Sample.kinds.withPaths (["*[0]"] ++ ["a[*]", "b"])⟩ Sample.folder 3).result = .ok r ∧
        r₂.content = r.content) ∧
      (Sample.crossing.run Sample.folder 3).result = .ok Sample.crossed ∧
      ∃ r₂, (Sample.crossing.run Sample.crossed 10).result = .ok r₂ ∧
        r₂.content = Sample.crossed.content := by
  have hkeys : Sample.folder.isWellKeyed = true := by decide
  have hids : ∀ id ∈ Sample.folder.ids, id < 3 := by decide
  have h₁ : (run ⟨Sample.kinds.withPaths ["*[0]"]⟩ Sample.folder 3).result =
      .ok Sample.halfway := by cbv
  have h₂ : (run ⟨Sample.kinds.withPaths ["a[*]", "b"]⟩ Sample.halfway 10).result = .ok
      (.node 16 (.mapping .plain) none (some (Sample.halfway.renew false 13).1)
        [(.text "a", .list 11 [.text "scalar@a[0]", .text "scalar@a[1]"]),
          (.text "b", .text "sequence@b")]) := by cbv
  have hr : (run ⟨Sample.kinds.withPaths (["*[0]"] ++ ["a[*]", "b"])⟩ Sample.folder 3).result = .ok
      (.node 9 (.mapping .plain) none (some (Sample.folder.renew false 6).1)
        [(.text "a", .list 4 [.text "scalar@a[0]", .text "scalar@a[1]"]),
          (.text "b", .text "sequence@b")]) := by cbv
  have honce : (Sample.crossing.run Sample.folder 3).result = .ok Sample.crossed := by cbv
  have htwice : (Sample.crossing.run Sample.crossed 10).result = .ok
      (.node 14 (.mapping .plain) none (some (Sample.crossed.renew false 12).1)
        [(.text "a", .list 11 [.text "X", .text "x"]), (.text "b", .text "X")]) := by cbv
  have hboth : (run ⟨Sample.crossing.policy.withPaths (["*[0]", "b"] ++ ["*[0]", "b"])⟩
      Sample.folder 3).result = .ok Sample.crossed := by cbv
  refine ⟨rfl, hkeys, rfl, h₁, ⟨_, _, h₂, hr, ?_⟩, honce, _, htwice, ?_⟩
  · exact (run_composes rfl hkeys rfl rfl Censor.answersBy_tellKind (fun _ _ => ⟨_, rfl⟩) hids
      (by decide) hids h₁ h₂ hr).1
  · exact (@run_composes Sample.crossing.policy (fun _ _ => .text "X") ["*[0]", "b"] ["*[0]", "b"] _
      _ _ _ 3 10 3 rfl hkeys rfl rfl (fun _ _ => rfl) (fun _ _ => ⟨_, rfl⟩) hids (by decide) hids
      honce htwice hboth).2.2 _ rfl rfl rfl

end Redaction
