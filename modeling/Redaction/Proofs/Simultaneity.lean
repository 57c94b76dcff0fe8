import Redaction.Proofs.WorkingCopy

/-!
# Paths one after another and all at once

With one replacement for all places, the order of the paths does not matter, although each is read
against what those before it have left: the result holds the replacement in the outermost slots
among those that any path addresses in the input, and is otherwise unchanged. Deleting has an
exception, which `Value.hasTwins` tells: where a decimal text is a key beside the number that it
denotes, a path that named the text names the number once the text is gone.

Main statement: `Engine.run_fills`. It needs `Value.isKeyedByValue`: a mapping or sequence that is
copied as a whole ends up with two entries for each key that is an object.
-/

namespace Redaction

namespace Value

variable {c v child : Value} {chosen : List Key → Bool} {stride next : Stride}
  {strides rest : List Stride} {k : Key} {position : List Key}

theorem filled_none (v c : Value) : v.filled c (fun _ => false) = v := by
  induction v using Value.induction with
  | scalar s => rfl
  | node id shape tag snapshot slots _ _ ihSlots =>
    rw [filled_eq]
    refine (withSlots_congr fun slot mem => ?_).trans withSlots_self
    by_cases ht : shape.kind.isTraversable = true
    · rw [children_node ht] at mem
      rw [if_neg Bool.false_ne_true, ihSlots slot mem]
    · simp [children, kind, ht] at mem

theorem settled_eq_none {kind : Kind} (h : settled kind c = none) :
    c.isRemove = true ∧ kind = .mapping := by
  unfold settled at h
  split at h
  · rename_i hremove
    split at h
    · rename_i hmapping
      exact ⟨hremove, hmapping⟩
    · simp at h
  · simp at h

theorem redactAlong_of_not_traversable (h : v.kind.isTraversable = false)
    (x : Option Key → Value) : v.redactAlong strides x = v := by
  match strides with
  | [] => rfl
  | [stride] => exact withSlots_of_not_traversable h
  | stride :: next :: rest => exact withSlots_of_not_traversable h

theorem addresses_nil (v : Value) : v.addresses [] position = false := by
  cases position <;> rfl

theorem addresses_root (v : Value) : v.addresses strides [] = false := by
  match strides with
  | [] => rfl
  | [stride] => rfl
  | stride :: next :: rest => rfl

theorem addresses_last (j : Key) : v.addresses [stride] (k :: j :: position) = false := by
  simp only [addresses]
  cases Slots.get? k v.children <;> simp

theorem addresses_cons (h : Slots.Distinct v.children) (mem : (k, child) ∈ v.children) :
    v.addresses (stride :: next :: rest) (k :: position) =
      (stride.leads v k && child.addresses (next :: rest) position) := by
  simp [addresses, Slots.get?_of_mem h mem (Key.same_refl k)]

theorem leads_filled (hkeys : v.isWellKeyed = true)
    (htwins : c.isRemove = true → v.everywhere (fun u => !u.hasTwins) = true)
    (mem : (k, child) ∈ v.children) (hk : chosen [k] = false) :
    stride.leads (v.filled c chosen) k = stride.leads v k := by
  rw [filled_eq]
  refine Stride.leads_withSlots (distinct_children hkeys) (fun slot _ hnone => ?_) mem
    (by rw [hk, if_neg Bool.false_ne_true]) (isMissing_filled child c _)
  split at hnone
  · obtain ⟨hremove, hmapping⟩ := settled_eq_none hnone
    refine ⟨hmapping, ?_⟩
    cases v with
    | scalar s => simp [children_scalar] at mem
    | node id shape tag snapshot slots =>
      have ht : shape.kind.isTraversable = true := by
        simp only [kind] at hmapping
        rw [hmapping]
        rfl
      simpa using ((everywhere_node ht).mp (htwins hremove)).1
  · simp at hnone

theorem withSlots_filled (g : Key → Value → Option Value) : (v.filled c chosen).withSlots g =
    v.withSlots fun k child => (if chosen [k] then settled v.kind c
      else some (child.filled c fun position => chosen (k :: position))).bind (g k) := by
  rw [filled_eq, withSlots_withSlots]

theorem kind_filled : (v.filled c chosen).kind = v.kind := by
  rw [filled_eq, kind_withSlots]

/-- One stride fills what it leads into. What is filled already is filled with the same again. -/
theorem redactAlong_filled_last (hkeys : v.isWellKeyed = true)
    (htwins : c.isRemove = true → v.everywhere (fun u => !u.hasTwins) = true) :
    (v.filled c chosen).redactAlong [stride] (fun _ => c) =
      v.filled c fun position => chosen position || v.addresses [stride] position := by
  rw [filled_eq v c fun position => chosen position || v.addresses [stride] position,
    redactAlong, withSlots_filled]
  refine withSlots_congr fun slot mem => ?_
  obtain ⟨k, child⟩ := slot
  rw [kind_filled, stride.pick_const c k]
  by_cases hk : chosen [k] = true
  · simp only [hk, if_true, Bool.true_or]
    cases hs : settled v.kind c with
    | none => rfl
    | some z => simp
  · have hk : chosen [k] = false := by simpa using hk
    have hhere : v.addresses [stride] [k] = stride.leads v k := rfl
    simp only [hk, Bool.false_eq_true, if_false, Option.bind_some, Bool.false_or,
      leads_filled hkeys htwins mem hk, hhere]
    by_cases hl : stride.leads v k = true
    · simp [hl]
    · have hl : stride.leads v k = false := by simpa using hl
      simp only [hl, Bool.false_eq_true, if_false, Option.some.injEq]
      congr 1
      funext position
      cases position with
      | nil => simp [hhere, hl]
      | cons j position => rw [addresses_last, Bool.or_false]

/-- Redacting along one more path fills the slots that it addressed before anything was filled. -/
theorem redactAlong_filled (hc : c.kind.isTraversable = false) (hkeys : v.isWellKeyed = true)
    (htwins : c.isRemove = true → v.everywhere (fun u => !u.hasTwins) = true) :
    (v.filled c chosen).redactAlong strides (fun _ => c) =
      v.filled c fun position => chosen position || v.addresses strides position := by
  induction strides generalizing v chosen with
  | nil =>
    simp only [addresses_nil, Bool.or_false]
    rfl
  | cons stride rest ih =>
    cases rest with
    | nil => exact redactAlong_filled_last hkeys htwins
    | cons next rest =>
      have hdistinct := distinct_children hkeys
      rw [filled_eq v c fun position => chosen position ||
        v.addresses (stride :: next :: rest) position, redactAlong, withSlots_filled]
      refine withSlots_congr fun slot mem => ?_
      obtain ⟨k, child⟩ := slot
      rw [stride.pick_const c k]
      by_cases hk : chosen [k] = true
      · -- no stride leads on from a slot that is filled
        simp only [hk, if_true, Bool.true_or]
        cases hs : settled v.kind c with
        | none => rfl
        | some z =>
          rw [Option.bind_some, redactAlong_of_not_traversable (isTraversable_settled hc hs),
            ite_self]
      · have hk : chosen [k] = false := by simpa using hk
        have hhere : v.addresses (stride :: next :: rest) [k] = false := by
          rw [addresses_cons hdistinct mem, addresses_root, Bool.and_false]
        simp only [hk, Bool.false_eq_true, if_false, Option.bind_some, Bool.false_or, hhere,
          leads_filled hkeys htwins mem hk, addresses_cons hdistinct mem, Option.some.injEq]
        by_cases hl : stride.leads v k = true
        · simp only [hl, if_true, Bool.true_and]
          exact ih (everywhere_child hkeys mem) fun hremove =>
            everywhere_child (htwins hremove) mem
        · simp [hl]

theorem answersAt_const (c : Value) (path : String) :
    Censor.answersAt (fun _ => c) path = fun _ => c := by
  funext l
  cases l <;> rfl

/-- Redacting along paths one after another fills what any of them addresses. -/
theorem redactAll_filled {paths : List CompiledPath} (hc : c.kind.isTraversable = false)
    (hkeys : v.isWellKeyed = true)
    (htwins : c.isRemove = true → v.everywhere (fun u => !u.hasTwins) = true) :
    (v.filled c chosen).redactAll (fun _ => c) paths = v.filled c fun position =>
      chosen position || paths.any fun path =>
        v.addresses (Path.strides path.segments) position := by
  induction paths generalizing chosen with
  | nil => simp [redactAll]
  | cons path rest ih =>
    rw [redactAll_cons, answersAt_const, redactAlong_filled hc hkeys htwins, ih]
    simp [Bool.or_assoc]

theorem leads_likeness (stride : Stride) (thaw : Bool) (v : Value) (k : Key) :
    stride.leads (v.likeness thaw) k = stride.leads v k := by
  rw [Stride.leads, finds?_likeness]
  rfl

theorem addresses_likeness (thaw : Bool) (v : Value) (strides : List Stride)
    (position : List Key) :
    (v.likeness thaw).addresses strides position = v.addresses strides position := by
  induction strides generalizing v position with
  | nil => simp [addresses_nil]
  | cons stride rest ih =>
    cases position with
    | nil => rw [addresses_root, addresses_root]
    | cons k position =>
      have hget : Slots.get? k (v.likeness thaw).children =
          (Slots.get? k v.children).map fun child => child.likeness thaw := by
        rw [children_likeness, Slots.get?_map]
      have hbelow : ((Slots.get? k v.children).map fun child => child.likeness thaw).any
            (fun child => child.addresses rest position) =
          (Slots.get? k v.children).any fun child => child.addresses rest position := by
        cases Slots.get? k v.children with
        | none => rfl
        | some child => simp [ih]
      cases rest with
      | nil =>
        cases position with
        | nil => exact leads_likeness stride thaw v k
        | cons j position => rw [addresses_last, addresses_last]
      | cons next rest => simp only [addresses, leads_likeness, hget, hbelow]

theorem hasTwins_likeness (thaw : Bool) (v : Value) :
    (v.likeness thaw).everywhere (fun u => !u.hasTwins) = v.everywhere fun u => !u.hasTwins := by
  refine everywhere_likeness (fun id shape tag snapshot slots ht => ?_) v
  obtain ⟨shape', tag', snapshot', hshape, _, heq⟩ := exists_likeness thaw id shape tag snapshot ht
  have hmapping : (shape'.kind = .mapping) = (shape.kind = .mapping) := by
    rcases hshape with rfl | ⟨rfl, hkind⟩
    · rfl
    · rw [hkind]
      simp [Shape.kind]
  rw [heq]
  simp only [hasTwins, kind, hmapping, Value.slots, likenessSlots_eq_map, List.any_map,
    Function.comp_def, Slots.get?_map, Option.isSome_map]
  rfl

theorem content_restorable {root snapshot : Value} {n : Ident}
    (h : root.kind.isTraversable = true) :
    (root.restorable snapshot n).content = root.content.restorable .null 0 := by
  cases root with
  | scalar s => simp [isTraversable_scalar] at h
  | node id shape tag snap slots =>
    have ht : shape.rebuilt.kind.isTraversable = true := by
      rw [Shape.kind_rebuilt]
      exact h
    rw [restorable, content, content, likeness_node ht (.inl rfl), likeness_node h (.inl rfl),
      restorable, Shape.copiedTag_rebuilt]
    rfl

end Value

namespace Engine

variable {engine : Engine} {v r c : Value} {next : Ident}

/-- Applying the paths one after another in place equals replacing all that they address at once.
A live result holds, beside its snapshot, the thawed input in which every outermost slot among those
that any path addresses in the input holds the replacement, or is deleted. -/
theorem run_fills (hkind : v.kind.isTraversable = true) (hkeys : v.isWellKeyed = true)
    (hkeyed : v.isKeyedByValue = true) (hnext : ∀ id ∈ v.ids, id < next)
    (happlied : engine.policy.applied = .literal c) (hc : c.kind.isTraversable = false)
    (hold : ∀ id ∈ c.ids, id < next)
    (htwins : c.isRemove = true → v.everywhere (fun u => !u.hasTwins) = true)
    (hlive : engine.policy.output = .live) (hr : (engine.run v next).result = .ok r) :
    r.content = (v.thawed.filled c fun position => engine.paths.any fun path =>
      v.addresses (Path.strides path.segments) position).restorable .null 0 := by
  have hblind : engine.policy.applied.IsBlind fun _ => c := by
    rw [happlied]
    exact fun _ => rfl
  obtain ⟨root, snapshot?, n, hclose, hsnapshot, hwritable, hkeyedRoot, hroot, _⟩ :=
    run_redacts hkind hnext hkeyed hkeys hblind (fun _ => hc) (fun _ => hold) hr
  obtain ⟨snapshot, rfl⟩ := Option.ne_none_iff_exists'.mp (hsnapshot.mp hlive)
  simp only [close_live hwritable hkeyedRoot, Except.ok.injEq] at hclose
  subst hclose
  have hfilled : v.thawed.redactAll (fun _ => c) engine.paths =
      v.thawed.filled c fun position => engine.paths.any fun path =>
        v.addresses (Path.strides path.segments) position := by
    have hall := @Value.redactAll_filled c v.thawed (fun _ => false) engine.paths hc
      (by rw [Value.thawed, Value.isWellKeyed_likeness]; exact hkeys)
      (fun hremove => by rw [Value.thawed, Value.hasTwins_likeness]; exact htwins hremove)
    rw [Value.filled_none] at hall
    simpa [Value.thawed, Value.addresses_likeness] using hall
  rw [← hfilled, ← hroot]
  exact Value.content_restorable (Value.isTraversable_of_isWritable hwritable)

end Engine

namespace Sample

def nested : Value := .dict 0
  [(.text "a", .list 1 [.atom (.int 1), .dict 2 [(.text "x", .atom (.int 2))]]),
    (.text "b", .node 3 (.tuple .plain) none none (indexed [.atom (.int 3), .atom (.int 4)]))]

/-- Masks a slot, then what holds it, and a slot beside both. -/
def masking : Engine := ⟨{
  paths := ["a[1].x", "*[1]", "b[0]"], censor := .literal (.text "X"), output := .live
  strict := true, remove := false, debug := false, given := [] }⟩

def masked : Value := .node 12 (.mapping .plain) none
  (some (.dict 8
    [(.text "a", .list 9 [.atom (.int 1), .dict 10 [(.text "x", .atom (.int 2))]]),
      (.text "b", .node 11 (.tuple .plain) none none (indexed [.atom (.int 3), .atom (.int 4)]))]))
  [(.text "a", .list 5 [.atom (.int 1), .text "X"]),
    (.text "b", .list 7 [.text "X", .text "X"])]

end Sample

/-- Paths that overlap, each in a value that the ones before it have changed. -/
theorem Engine.run_fills_nested :
    Sample.nested.kind.isTraversable = true ∧ Sample.nested.isWellKeyed = true ∧
      Sample.nested.isKeyedByValue = true ∧ (∀ id ∈ Sample.nested.ids, id < 4) ∧
      (Sample.masking.run Sample.nested 4).result = .ok Sample.masked ∧
      Sample.masked.content = (Sample.nested.thawed.filled (.text "X") fun position =>
        Sample.masking.paths.any fun path =>
          Sample.nested.addresses (Path.strides path.segments) position).restorable .null 0 := by
  have hkeys : Sample.nested.isWellKeyed = true := by decide
  have hids : ∀ id ∈ Sample.nested.ids, id < 4 := by decide
  have hresult : (Sample.masking.run Sample.nested 4).result = .ok Sample.masked := by cbv
  refine ⟨rfl, hkeys, rfl, hids, hresult, ?_⟩
  exact run_fills rfl hkeys rfl hids rfl rfl (by simp [Value.text, Value.atom, Value.ids])
    (fun hremove => by cases hremove) rfl hresult

end Redaction
