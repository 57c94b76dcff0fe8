import Redaction.Proofs.Appearance

/-!
# Layers of snapshots

A live result can be redacted again: its snapshot is a duplicate of the input, which holds the
snapshot of an earlier input, and so on. Restoring peels these layers off, one at a time.

A duplicate of a defaulting mapping loses its snapshot, so results of that kind have one layer only.
A container that is copied as a whole has its snapshots copied along, in which objects are then new
ones.

Main statement: `Engine.restores_peel`.
-/

namespace Redaction

/-- The shape of what redaction makes of a container of this shape. -/
def Shape.settled : Shape → Shape
  | tuple _ => sequence .plain
  | shape => shape.rebuilt

theorem Shape.settled_settled (shape : Shape) : shape.settled.settled = shape.settled := by
  obtain form | form | form | _ := shape <;> try rfl
  all_goals cases form <;> rfl

theorem Shape.isTraversable_settled (shape : Shape) :
    shape.settled.kind.isTraversable = shape.kind.isTraversable := by
  cases shape <;> simp only [settled, kind_rebuilt]
  rfl

namespace Value

def shape? : Value → Option Shape
  | scalar _ => none
  | node _ shape _ _ _ => some shape

theorem isTraversable_eq (v : Value) :
    v.kind.isTraversable = v.shape?.any fun shape => shape.kind.isTraversable := by
  cases v with
  | scalar s => exact isTraversable_scalar s
  | node id shape tag snapshot slots => rfl

/-- Duplicates of the value keep what it is restored from. -/
def keepsSnapshot (v : Value) : Bool := v.shape?.any fun shape => !shape.losesAttributes

/-- The value is a container that is copied as a whole. -/
def isCopiedWhole (v : Value) : Bool := v.shape?.any Shape.isCopiedWhole

structure Recalls (u snapshot : Value) : Prop where
  duplicable : snapshot.canDuplicate = true
  keyed : snapshot.isKeyedByValue = true
  shown : snapshot.shown = u.shown

/-- Duplicates of the value carry the snapshots along that recall the given values. -/
def Carries (v : Value) (us : List Value) : Prop :=
  us ≠ [] → v.keepsSnapshot = true ∧
    (v.isCopiedWhole = true → ∀ u ∈ us, u.holdsObject = false)

/-- The snapshots in a value, each one inside the one before, recall the given values, and
duplicates carry them along. -/
def Layered : Value → List Value → Prop
  | _, [] => True
  | v, u :: us => v.Carries (u :: us) ∧
      ∃ s, v.snapshot? = some s ∧ Recalls u s ∧ s.Layered us

/-- Restoring succeeds and gives what the first of the given values shows, which gives the next of
them when it is restored, and so on. -/
def Peels : Value → List Value → Prop
  | _, [] => True
  | v, u :: us => ∀ next, ∃ w m, v.restore next = .ok (w, m) ∧ w.shown = u.shown ∧ w.Peels us

section

variable {v : Value} {us : List Value}

theorem shape?_shift (offset : Ident) (v : Value) : (v.shift offset).shape? = v.shape? := by
  cases v <;> rfl

theorem snapshot?_shift (hkeeps : v.keepsSnapshot = true) (offset : Ident) :
    (v.shift offset).snapshot? = v.snapshot?.map fun u => u.shift offset := by
  cases v with
  | scalar s => rfl
  | node id shape tag snapshot slots =>
    have hkeeps : shape.losesAttributes = false := by simpa [keepsSnapshot, shape?] using hkeeps
    rw [shift, hkeeps]
    cases snapshot <;> rfl

theorem Recalls.shift {u s : Value} (h : Recalls u s) (hobject : u.holdsObject = false)
    (offset : Ident) : Recalls u (s.shift offset) where
  duplicable := (canDuplicate_shift offset s).trans h.duplicable
  keyed := (isKeyedByValue_shift offset s).trans h.keyed
  shown := (shown_shift offset ((holdsObject_congr h.shown).trans hobject)).trans h.shown

theorem Carries.tail (h : v.Carries us) : v.Carries us.tail := by
  intro hne
  obtain ⟨hkeeps, hobject⟩ := h fun heq => hne (by simp [heq])
  exact ⟨hkeeps, fun hw u mem => hobject hw u (List.mem_of_mem_tail mem)⟩

theorem Carries.congr {w : Value} (h : v.Carries us) (hshape : us ≠ [] → w.shape? = v.shape?) :
    w.Carries us := by
  intro hne
  rw [keepsSnapshot, isCopiedWhole, hshape hne]
  exact h hne

theorem Layered.shift (h : v.Layered us) (hobject : ∀ u ∈ us, u.holdsObject = false)
    (offset : Ident) : (v.shift offset).Layered us := by
  induction us generalizing v with
  | nil => trivial
  | cons u us ih =>
    obtain ⟨hcarries, s, hs, hrecalls, hlayers⟩ := h
    obtain ⟨hu, hus⟩ := List.forall_mem_cons.mp hobject
    refine ⟨hcarries.congr fun _ => shape?_shift offset v, s.shift offset, ?_,
      hrecalls.shift hu offset, ih hlayers hus⟩
    rw [snapshot?_shift (hcarries (List.cons_ne_nil u us)).1, hs]
    rfl

theorem snapshot?_renew (thaw : Bool) (hkeeps : v.keepsSnapshot = true) (n : Ident) :
    (v.renew thaw n).1.shape? = v.shape? ∧
      (v.renew thaw n).1.snapshot? =
        if v.isCopiedWhole then shiftOption n v.snapshot? else v.snapshot? := by
  cases v with
  | scalar s => simp [keepsSnapshot, shape?] at hkeeps
  | node id shape tag snapshot slots =>
    have hkeeps : shape.losesAttributes = false := by simpa [keepsSnapshot, shape?] using hkeeps
    have hwhole : (node id shape tag snapshot slots).isCopiedWhole = shape.isCopiedWhole := rfl
    rcases Shape.copying shape with rfl | ⟨form, rfl⟩ | hb | hw
    · rw [renew_view]
      exact ⟨rfl, rfl⟩
    · simp [Shape.losesAttributes] at hkeeps
    · have hnot : shape.isCopiedWhole = false := by simp [Shape.isCopiedWhole, hb]
      simp only [renew_builtIn hb, hwhole, hnot, hkeeps, shape?, snapshot?, Bool.false_eq_true,
        if_false, and_self]
    · simp only [renew_whole hw, hwhole, hw, shape?, snapshot?, if_true, and_self]

theorem Layered.renew (h : v.Layered us) (thaw : Bool) (n : Ident) :
    (v.renew thaw n).1.Layered us := by
  cases us with
  | nil => trivial
  | cons u us =>
    obtain ⟨hcarries, s, hs, hrecalls, hlayers⟩ := h
    obtain ⟨hkeeps, hobject⟩ := hcarries (List.cons_ne_nil u us)
    obtain ⟨hshape, hsnapshot⟩ := snapshot?_renew thaw hkeeps n
    refine ⟨hcarries.congr fun _ => hshape, ?_⟩
    rw [hs] at hsnapshot
    by_cases hw : v.isCopiedWhole = true
    · obtain ⟨hu, hus⟩ := List.forall_mem_cons.mp (hobject hw)
      rw [if_pos hw] at hsnapshot
      exact ⟨s.shift n, hsnapshot, hrecalls.shift hu n, hlayers.shift hus n⟩
    · rw [if_neg hw] at hsnapshot
      exact ⟨s, hsnapshot, hrecalls, hlayers⟩

theorem restore_of_snapshot {s : Value} (hs : v.snapshot? = some s) (hcan : s.canDuplicate = true)
    (n : Ident) : v.restore n = .ok (s.renew false n) := by
  simp only [restore, hs, duplicate, hcan, if_true]

/-- Restoring gives what the snapshot recalls, and goes on with the snapshot's duplicate. -/
theorem Recalls.peels {u s : Value} (h : Recalls u s) (hs : v.snapshot? = some s)
    (hrest : ∀ next, (s.renew false next).1.Peels us) : v.Peels (u :: us) := by
  intro next
  exact ⟨_, _, restore_of_snapshot hs h.duplicable next, (shown_renew h.keyed).trans h.shown,
    hrest next⟩

theorem Layered.peels (h : v.Layered us) : v.Peels us := by
  induction us generalizing v with
  | nil => trivial
  | cons u us ih =>
    obtain ⟨_, s, hs, hrecalls, hlayers⟩ := h
    exact hrecalls.peels hs fun next => ih (hlayers.renew false next)

theorem shape?_afterAll (ws : List Write) (v : Value) : (v.afterAll ws).shape? = v.shape? := by
  induction ws generalizing v with
  | nil => rfl
  | cons w rest ih =>
    rw [afterAll_cons, ih]
    cases v <;> rfl

theorem rebuilt_shape?_renew (v : Value) (n : Ident) :
    (v.renew true n).1.shape?.map Shape.rebuilt = v.shape?.map Shape.settled := by
  cases v with
  | scalar s => rfl
  | node id shape tag snapshot slots =>
    rcases Shape.copying shape with rfl | ⟨form, rfl⟩ | hb | hw
    · rw [renew_view]
      rfl
    · rw [renew_tuple]
      rfl
    · rw [renew_builtIn hb]
      cases shape <;> simp_all [Shape.isBuiltIn, shape?, Shape.settled]
    · rw [renew_whole hw]
      cases shape <;>
        simp_all [Shape.isCopiedWhole, Shape.kind, Kind.isWritable, shape?, Shape.settled]

theorem shape?_withRestore {snapshot : Value} (h : v.kind.isWritable = true) (m : Ident) :
    (v.withRestore snapshot m).shape? = v.shape?.map Shape.rebuilt := by
  have ht := isTraversable_of_isWritable h
  cases v with
  | scalar s => simp [isTraversable_scalar] at ht
  | node id shape tag snap slots =>
    rw [withRestore_node ht]
    rfl

theorem snapshot?_withRestore {snapshot : Value} (h : v.kind.isWritable = true) (m : Ident) :
    (v.withRestore snapshot m).snapshot? = some snapshot := by
  have ht := isTraversable_of_isWritable h
  cases v with
  | scalar s => simp [isTraversable_scalar] at ht
  | node id shape tag snap slots =>
    rw [withRestore_node ht]
    rfl

end

end Value

namespace Engine

variable {engine : Engine} {v r : Value} {next : Ident}

theorem start_confined (hnext : ∀ id ∈ v.ids, id < next) {m : Ident}
    (hm : (v.renew true next).2 ≤ m) : (Workspace.start (v.renew true next).1 m).Confined
      (fun _ => True) (fun _ => True) (v.renew true next).1 next := by
  obtain ⟨hle, hworking⟩ := Value.renew_fresh true hnext
  have hhidden : ∀ id ∈ v.hidden, id < (v.renew true next).2 := fun id hid =>
    lt_of_lt_of_le (hnext id (Value.hidden_subset_ids hid)) hle
  exact {
    edits := rfl
    root := ⟨fun _ _ => trivial, fun id hid =>
      ⟨trivial, lt_of_lt_of_le (hworking.ids_lt hhidden id hid) hm⟩⟩
    writes := by simp [Workspace.start]
    told := by simp [Workspace.start]
    next := le_trans hle hm }

/-- A live result has the settled shape of the input, and a duplicate of the input as its
snapshot. -/
theorem run_settles (hkind : v.kind.isTraversable = true) (hlive : engine.policy.output = .live)
    (hunused : ∀ id ∈ v.ids ++ engine.policy.applied.ids, id < next)
    (hr : (engine.run v next).result = .ok r) :
    v.canDuplicate = true ∧ r.shape? = v.shape?.map Shape.settled ∧
      ∃ m, r.snapshot? = some (v.renew false m).1 := by
  have hpass : (engine.policy.strict && !v.kind.isTraversable) = false := by simp [hkind]
  cases hprepare : engine.prepare v next with
  | error failure => simp [run, hpass, hprepare] at hr
  | ok begun =>
    obtain ⟨working, snapshot, m⟩ := begun
    obtain ⟨hcan, rfl, ⟨_, rfl, rfl⟩ | ⟨hother, _⟩⟩ := prepare_eq_ok hprepare
    swap
    · exact absurd hlive hother
    obtain ⟨hv, hcensor⟩ := List.forall_mem_append.mp hunused
    have hstart := start_confined hv (Value.le_renew false v (v.renew true next).2)
    rcases run_leaves hpass hprepare (applyPaths_confined hstart
      (Censor.respects_of_ids hcensor)) with ⟨_, _, _, hfails⟩ | ⟨s, hs, _, hresult⟩
    · exact absurd hr (hfails r)
    have hwritable : s.root.kind.isWritable = true := by
      rw [hs.edits, Value.kind_afterAll]
      exact Value.isWritable_renew hkind next
    simp only [hresult, close, hwritable, if_true, Except.ok.injEq] at hr
    subst hr
    refine ⟨hcan, ?_, _, Value.snapshot?_withRestore hwritable _⟩
    rw [Value.shape?_withRestore hwritable, hs.edits, Value.shape?_afterAll,
      Value.rebuilt_shape?_renew]

/-- Redaction of `origin` again and again, by live calls: `v` is the latest result, and the older
values, the latest first, end with `origin`. -/
inductive Redacted (origin : Value) : Value → List Value → Prop
  | start : Redacted origin origin []
  | call {engine : Engine} {v r : Value} {older : List Value} {next : Ident}
      (earlier : Redacted origin v older) (live : engine.policy.output = .live)
      (unused : ∀ id ∈ v.ids ++ engine.policy.applied.ids, id < next)
      (result : (engine.run v next).result = .ok r) : Redacted origin r (v :: older)

namespace Redacted

variable {origin v : Value} {older : List Value}

theorem isTraversable (h : Redacted origin v older) (hkind : origin.kind.isTraversable = true) :
    v.kind.isTraversable = true := by
  induction h with
  | start => exact hkind
  | call earlier live unused result ih =>
    have hshape := (run_settles ih live unused result).2.1
    rw [Value.isTraversable_eq] at ih ⊢
    rw [hshape, Option.any_map]
    simpa only [Function.comp_def, Shape.isTraversable_settled] using ih

theorem shape?_settled (h : Redacted origin v older) (hkind : origin.kind.isTraversable = true)
    (hne : older ≠ []) : v.shape?.map Shape.settled = v.shape? := by
  cases h with
  | start => exact absurd rfl hne
  | call earlier live unused result =>
    rw [(run_settles (earlier.isTraversable hkind) live unused result).2.1, Option.map_map]
    exact congrArg (Option.map · _) (funext Shape.settled_settled)

/-- The snapshot of the latest result recalls the value before it, and has a layer for each of the
others. -/
theorem recalls {u : Value} {us : List Value} (h : Redacted origin v (u :: us))
    (hkind : origin.kind.isTraversable = true)
    (hkeyed : ∀ w ∈ u :: us, w.isKeyedByValue = true) :
    ∃ s, v.snapshot? = some s ∧ Value.Recalls u s ∧ (v.Carries us → s.Layered us) := by
  generalize holder : u :: us = older at h hkeyed
  induction h generalizing u us with
  | start => simp at holder
  | call earlier live unused result ih =>
    obtain ⟨rfl, rfl⟩ := List.cons.inj holder
    obtain ⟨hu, hus⟩ := List.forall_mem_cons.mp hkeyed
    obtain ⟨hcan, hshape, m, hsnapshot⟩ :=
      run_settles (earlier.isTraversable hkind) live unused result
    refine ⟨_, hsnapshot, ⟨Value.canDuplicate_renew hcan, Value.isKeyedByValue_renew hu,
      Value.shown_renew hu⟩, fun hcarries => Value.Layered.renew ?_ false m⟩
    cases us with
    | nil => trivial
    | cons w ws =>
      have hcarries : u.Carries (w :: ws) := hcarries.congr fun hne => by
        rw [hshape, earlier.shape?_settled hkind hne]
      obtain ⟨s, hs, hrecalls, hlayers⟩ := ih rfl hus
      exact ⟨hcarries, s, hs, hrecalls, hlayers hcarries.tail⟩

end Redacted

/-- Restoring peels repeated redactions off one at a time. However often a container was redacted by
live calls, restoring the last result gives what the value before it shows, restoring that gives the
one before, and so on down to the first, and each of these restores succeeds. A duplicate of the
last result restores to the same.

The conditions say what duplicates lose. A container that is copied as a whole must not have an
object as a key. From the second layer on, and from the first for a duplicate of the result, the
root must not be a defaulting mapping, whose duplicates lose their snapshot, and if it is copied as a
whole, the values recalled must not hold objects, as these are copied along in the snapshots. -/
theorem restores_peel {origin v : Value} {older : List Value} (h : Redacted origin v older)
    (hkind : origin.kind.isTraversable = true)
    (hkeyed : ∀ u ∈ older, u.isKeyedByValue = true) :
    (v.Carries older.tail → v.Peels older) ∧
      (v.Carries older →
        ∀ thaw next d m, v.duplicate thaw next = .ok (d, m) → d.Peels older) := by
  cases older with
  | nil => exact ⟨fun _ => trivial, fun _ _ _ _ _ _ => trivial⟩
  | cons u us =>
    obtain ⟨s, hs, hrecalls, hlayers⟩ := h.recalls hkind hkeyed
    constructor
    · intro hcarries
      exact hrecalls.peels hs fun next => ((hlayers hcarries).renew false next).peels
    · intro hcarries thaw next d m hd
      have hlayered : v.Layered (u :: us) := ⟨hcarries, s, hs, hrecalls, hlayers hcarries.tail⟩
      unfold Value.duplicate at hd
      split at hd
      · obtain rfl : (v.renew thaw next).1 = d := congrArg Prod.fst (Except.ok.inj hd)
        exact (hlayered.renew thaw next).peels
      · simp at hd

end Engine

namespace Sample

/-- Puts a word at a path, and gives live results. -/
def covering (path word : String) : Engine := ⟨{
  paths := [path], censor := .literal (.text word), output := .live, strict := true, remove := false
  debug := false, given := [] }⟩

def box : Value := .node 0 (.mapping .wrapped) none none
  [(.text "a", .list 1 [.atom (.int 1)]), (.text "b", .atom (.int 2))]

def boxOnce : Value := .node 6 (.mapping .wrapped) none
  (some (.node 4 (.mapping .wrapped) none none
    [(.text "a", .list 5 [.atom (.int 1)]), (.text "b", .atom (.int 2))]))
  [(.text "a", .list 3 [.text "X"]), (.text "b", .atom (.int 2))]

def boxTwice : Value := .node 46 (.mapping .wrapped) none
  (some (.node 44 (.mapping .wrapped) none
    (some (.node 26 (.mapping .wrapped) none none
      [(.text "a", .list 27 [.atom (.int 1)]), (.text "b", .atom (.int 2))]))
    [(.text "a", .list 45 [.text "X"]), (.text "b", .atom (.int 2))]))
  [(.text "a", .list 21 [.text "X"]), (.text "b", .text "Y")]

end Sample

theorem Engine.restores_peel_box :
    Sample.boxTwice.Peels [Sample.boxOnce, Sample.box] ∧
      ∀ thaw next d m, Sample.boxTwice.duplicate thaw next = .ok (d, m) →
        d.Peels [Sample.boxOnce, Sample.box] := by
  have hfirst : ((Sample.covering "a[0]" "X").run Sample.box 2).result = .ok Sample.boxOnce := rfl
  have hsecond : ((Sample.covering "b" "Y").run Sample.boxOnce 10).result =
    .ok Sample.boxTwice := rfl
  have hredacted : Redacted Sample.box Sample.boxTwice [Sample.boxOnce, Sample.box] :=
    .call (.call .start rfl (by decide) hfirst) rfl (by decide) hsecond
  have hcarries : Sample.boxTwice.Carries [Sample.boxOnce, Sample.box] :=
    fun _ => ⟨rfl, fun _ => by decide⟩
  obtain ⟨hpeels, hduplicates⟩ := restores_peel hredacted rfl (by decide)
  exact ⟨hpeels hcarries.tail, hduplicates hcarries⟩

/-! ## What defaulting mappings lose -/

theorem Value.snapshot?_renew_defaulting {v : Value} {factory : Factory}
    (hshape : v.shape? = some (.mapping (.defaulting factory))) (thaw : Bool) (n : Ident) :
    (v.renew thaw n).1.shape? = v.shape? ∧ (v.renew thaw n).1.snapshot? = lost v.snapshot? := by
  cases v with
  | scalar s => simp [shape?] at hshape
  | node id shape tag snapshot slots =>
    obtain rfl : shape = .mapping (.defaulting factory) := Option.some.inj hshape
    rw [renew_builtIn rfl]
    exact ⟨rfl, rfl⟩

/-- A defaulting mapping that is redacted again can be restored once: what that gives is restorable
still, but to nothing. -/
theorem Engine.restore_defaulting {engine : Engine} {v r u : Value} {factory : Factory}
    {next : Ident} (hshape : v.shape? = some (.mapping (.defaulting factory)))
    (hsnapshot : v.snapshot? = some u) (hlive : engine.policy.output = .live)
    (hunused : ∀ id ∈ v.ids ++ engine.policy.applied.ids, id < next)
    (hr : (engine.run v next).result = .ok r) (n : Ident) :
    ∃ w m, r.restore n = .ok (w, m) ∧ ∀ k, w.restore k = .ok (.null, k) := by
  have hkind : v.kind.isTraversable = true := by
    rw [Value.isTraversable_eq, hshape]
    rfl
  obtain ⟨hcan, _, m, hs⟩ := run_settles hkind hlive hunused hr
  obtain ⟨hshape', hlost⟩ := Value.snapshot?_renew_defaulting hshape false m
  obtain ⟨_, hlost'⟩ := Value.snapshot?_renew_defaulting (hshape'.trans hshape) false n
  rw [hlost, hsnapshot] at hlost'
  exact ⟨_, _, Value.restore_of_snapshot hs (Value.canDuplicate_renew hcan) n,
    Value.restore_of_snapshot hlost' rfl⟩

end Redaction
