import Redaction.Proofs.PathEffect

/-!
# Runs of censors that look at contents and paths

What such a run asks and writes for one path is known beforehand: `Value.asks` and
`Value.writesAlong`, with the answers to what is asked about the working copy. No write made for a
path changes what is asked later for the same path.
-/

namespace Redaction

namespace Slots

theorem get?_map {slots : List Slot} (g : Value → Value) (j : Key) :
    get? j (slots.map fun slot => (slot.1, g slot.2)) = (get? j slots).map g := by
  induction slots with
  | nil => rfl
  | cons slot rest ih =>
    obtain ⟨k, v⟩ := slot
    by_cases hk : k.same j = true
    · simp [get?, hk]
    · simp only [List.map_cons, get?, hk]
      exact ih

theorem flatMap_of_mem {α : Type} {slots : List Slot} (h : Distinct slots) {slot : Slot}
    (mem : slot ∈ slots) {F : Slot → List α}
    (hF : ∀ b ∈ slots, slot.1.same b.1 = false → F b = []) : slots.flatMap F = F slot := by
  induction slots with
  | nil => simp at mem
  | cons a rest ih =>
    obtain ⟨hfirst, hrest⟩ := List.pairwise_cons.mp h
    rw [List.flatMap_cons]
    rcases List.mem_cons.mp mem with rfl | mem
    · have hnil : rest.flatMap F = [] := List.flatMap_eq_nil_iff.mpr fun b hb =>
        hF b (List.mem_cons_of_mem _ hb) (hfirst b hb)
      rw [hnil, List.append_nil]
    · have hnil : F a = [] := by
        refine hF a List.mem_cons_self ?_
        rw [Key.same_comm]
        exact hfirst slot mem
      rw [hnil, List.nil_append]
      exact ih hrest mem fun b hb => hF b (List.mem_cons_of_mem _ hb)

end Slots

namespace Value

variable {v u : Value} {segment last : String} {segments : List String} {stride : Stride}
  {rest : List Stride} {x : Option Key → Value}

theorem everywhere_walk {p : Value → Bool} (hv : v.everywhere p = true)
    (hu : v.walk segments = .ok (some u)) : u.everywhere p = true := by
  induction segments generalizing v with
  | nil =>
    obtain rfl : v = u := by simpa [walk] using hu
    exact hv
  | cons segment rest ih =>
    unfold walk at hu
    split at hu
    · simp at hu
    · simp at hu
    · rename_i k child hslot
      obtain ⟨j, _, mem⟩ := slot?_mem hslot
      exact ih (everywhere_child hv mem) hu

theorem IsTree.walk (hv : v.IsTree) (hu : v.walk segments = .ok (some u)) : u.IsTree := by
  induction segments generalizing v with
  | nil =>
    obtain rfl : v = u := by simpa [Value.walk] using hu
    exact hv
  | cons segment rest ih =>
    unfold Value.walk at hu
    split at hu
    · simp at hu
    · simp at hu
    · rename_i k child hslot
      obtain ⟨j, _, mem⟩ := slot?_mem hslot
      obtain ⟨id, shape, tag, snapshot, slots, rfl, ht, mem⟩ := exists_node mem
      exact ih (hv.slot ht mem) hu

theorem Editable.walk (hv : v.Editable) (hu : v.walk segments = .ok (some u)) : u.Editable :=
  ⟨hv.toIsTree.walk hu, everywhere_walk hv.writable hu⟩

theorem walk_concat (v : Value) (segments : List String) (last : String) :
    v.walk (segments ++ [last]) = match v.walk segments with
      | .error failure => .error failure
      | .ok none => .ok none
      | .ok (some u) => (u.slot? last).map fun slot => slot.map Prod.snd := by
  induction segments generalizing v with
  | nil =>
    simp only [List.nil_append, walk]
    cases v.slot? last with
    | error failure => rfl
    | ok slot => cases slot <;> rfl
  | cons segment rest ih =>
    simp only [List.cons_append, walk]
    split <;> simp_all

/-- The last segment is looked up in the container that those before it lead to. -/
theorem walk_concat_eq_some (h : v.walk (segments ++ [last]) = .ok (some u)) :
    ∃ holder k, v.walk segments = .ok (some holder) ∧ holder.slot? last = .ok (some (k, u)) := by
  rw [walk_concat] at h
  split at h
  · cases h
  · cases h
  · rename_i holder hholder
    cases hslot : holder.slot? last with
    | error failure => simp [hslot, Except.map] at h
    | ok slot =>
      rcases slot with _ | ⟨k, child⟩
      · simp [hslot, Except.map] at h
      · obtain rfl : child = u := by simpa [hslot, Except.map] using h
        exact ⟨holder, k, hholder, hslot⟩

theorem writesAlong_of_not_traversable (h : v.kind.isTraversable = false) {strides : List Stride} :
    writesAlong strides x v = [] := by
  match strides with
  | [] => rfl
  | [stride] => simp [writesAlong, children_of_not_traversable h]
  | stride :: next :: rest => simp [writesAlong, children_of_not_traversable h]

theorem finds?_named_of_slot? {found : Key} {child : Value}
    (hslot : v.slot? segment = .ok (some (found, child))) (hmissing : child.isMissing = false)
    (k : Key) : (Stride.named segment).finds? v k = if found.same k then some found else none := by
  simp [Stride.finds?, hslot, hmissing]

theorem finds?_named_eq_none
    (h : ∀ found child, v.slot? segment = .ok (some (found, child)) → child.isMissing = true)
    (k : Key) : (Stride.named segment).finds? v k = none := by
  cases hfinds : (Stride.named segment).finds? v k with
  | none => rfl
  | some found =>
    obtain ⟨child, hmissing, _, hslot⟩ := Stride.finds?_named.mp hfinds
    simp [h found child hslot] at hmissing

theorem writesAlong_named_none
    (h : ∀ found child, v.slot? segment = .ok (some (found, child)) → child.isMissing = true) :
    writesAlong (.named segment :: rest) x v = [] := by
  have hnone := finds?_named_eq_none h
  cases rest <;> simp [writesAlong, Stride.leads, hnone]

theorem writesAlong_named_last (hkeys : Slots.Distinct v.children) {found : Key} {child : Value}
    (hslot : v.slot? segment = .ok (some (found, child))) (hmissing : child.isMissing = false) :
    writesAlong [.named segment] x v = (v.writeTo found (x none)).toList := by
  obtain ⟨k, hk, mem⟩ := slot?_mem hslot
  have hfinds := finds?_named_of_slot? hslot hmissing
  rw [writesAlong, List.filterMap_eq_flatMap_toList, Slots.flatMap_of_mem hkeys mem]
  · rw [hfinds, if_pos (Key.same_comm _ _ ▸ hk)]
    rfl
  · intro b _ hb
    have hother : found.same b.1 = false := by
      by_contra hsame
      have := Key.same_trans hk (Bool.not_eq_false _ ▸ hsame)
      simp [hb] at this
    simp [hfinds, hother]

theorem writesAlong_named_cons (hkeys : Slots.Distinct v.children) {found : Key} {child : Value}
    (hslot : v.slot? segment = .ok (some (found, child))) {next : Stride} :
    writesAlong (.named segment :: next :: rest) x v = writesAlong (next :: rest) x child := by
  by_cases hmissing : child.isMissing = true
  · rw [writesAlong_named_none, writesAlong_of_not_traversable]
    · cases child with
      | scalar s => exact isTraversable_scalar s
      | node id shape tag snapshot slots => simp [isMissing] at hmissing
    · intro other u hother
      obtain ⟨rfl, rfl⟩ : found = other ∧ child = u := by simpa [hslot] using hother
      exact hmissing
  · have hmissing : child.isMissing = false := by simpa using hmissing
    obtain ⟨k, hk, mem⟩ := slot?_mem hslot
    have hfinds := finds?_named_of_slot? hslot hmissing
    rw [writesAlong, Slots.flatMap_of_mem hkeys mem]
    · simp [Stride.leads, hfinds, Key.same_comm found k ▸ hk, Stride.pick]
    · intro b _ hb
      have hother : found.same b.1 = false := by
        by_contra hsame
        have := Key.same_trans hk (Bool.not_eq_false _ ▸ hsame)
        simp [hb] at this
      simp [Stride.leads, hfinds, hother]

theorem writesAlong_walk (hv : v.isWellKeyed = true) (hu : v.walk segments = .ok (some u)) :
    writesAlong (segments.map .named ++ stride :: rest) x v = writesAlong (stride :: rest) x u := by
  induction segments generalizing v with
  | nil =>
    obtain rfl : v = u := by simpa [walk] using hu
    rfl
  | cons segment others ih =>
    unfold walk at hu
    split at hu
    · simp at hu
    · simp at hu
    · rename_i k child hslot
      obtain ⟨j, _, mem⟩ := slot?_mem hslot
      rw [← ih (everywhere_child hv mem) hu, List.map_cons, List.cons_append]
      cases others with
      | nil => exact writesAlong_named_cons (distinct_children hv) hslot
      | cons next others => exact writesAlong_named_cons (distinct_children hv) hslot

theorem writesAlong_walk_none (hv : v.isWellKeyed = true) (hu : v.walk segments = .ok none) :
    writesAlong (segments.map .named ++ stride :: rest) x v = [] := by
  induction segments generalizing v with
  | nil => simp [walk] at hu
  | cons segment others ih =>
    rw [List.map_cons, List.cons_append]
    unfold walk at hu
    split at hu
    · simp at hu
    · rename_i hslot
      exact writesAlong_named_none fun found child h => by simp [hslot] at h
    · rename_i k child hslot
      obtain ⟨j, _, mem⟩ := slot?_mem hslot
      rw [← ih (everywhere_child hv mem) hu]
      cases others with
      | nil => exact writesAlong_named_cons (distinct_children hv) hslot
      | cons next others => exact writesAlong_named_cons (distinct_children hv) hslot

theorem Editable.isTraversable_eq (hv : v.Editable) :
    v.kind.isTraversable = v.kind.isWritable := by
  cases v with
  | scalar s =>
    rw [isTraversable_scalar]
    by_contra h
    have := isTraversable_of_isWritable (Bool.eq_true_of_not_eq_false (Ne.symm h))
    simp [isTraversable_scalar] at this
  | node id shape tag snapshot slots =>
    by_cases ht : shape.kind.isTraversable = true
    · have hw : shape.kind.isWritable = true := ((everywhere_node ht).mp hv.writable).1
      simp [kind, ht, hw]
    · have hw : ¬shape.kind.isWritable = true := fun hw => ht (isTraversable_of_isWritable hw)
      simp [kind, ht, hw]

theorem find?_eq_none : v.find? segments = .ok none ↔
    v.walk segments = .ok none ∨ ∃ u, v.walk segments = .ok (some u) ∧ u.isMissing = true := by
  unfold find?
  cases v.walk segments with
  | error failure => simp [Except.map]
  | ok found =>
    cases found with
    | none => simp [Except.map]
    | some u => simp [Except.map, Option.filter_eq_none_iff]

theorem isTraversable_of_isMissing (h : v.isMissing = true) : v.kind.isTraversable = false := by
  cases v with
  | scalar s => exact isTraversable_scalar s
  | node id shape tag snapshot slots => simp [isMissing] at h

/-- A path whose first strides lead nowhere, or to the marker for nothing found, writes nothing. -/
theorem writesAlong_find?_none (hv : v.isWellKeyed = true) (hu : v.find? segments = .ok none) :
    writesAlong (segments.map .named ++ stride :: rest) x v = [] := by
  rcases find?_eq_none.mp hu with hwalk | ⟨u, hwalk, hmissing⟩
  · exact writesAlong_walk_none hv hwalk
  · rw [writesAlong_walk hv hwalk]
    exact writesAlong_of_not_traversable (isTraversable_of_isMissing hmissing)

theorem slot?_of_not_traversable (h : v.kind.isTraversable = false) (segment : String) :
    v.slot? segment = .ok none := by
  simp [slot?, children_of_not_traversable h, Slots.get?, h]

/-- Where the last segment is no wildcard and the container before it can be written, what would be
replaced is what the segments find. -/
theorem affected?_eq_find?_of (hv : ∀ u, v.walk segments = .ok (some u) →
    u.kind.isTraversable = u.kind.isWritable) (hlast : last ≠ Path.wildcard) :
    Run.affected? v segments last = v.find? (segments ++ [last]) := by
  unfold Run.affected? find?
  rw [walk_concat]
  cases hwalk : v.walk segments with
  | error failure => rfl
  | ok found =>
    cases found with
    | none => rfl
    | some u =>
      have hwritable := hv u hwalk
      by_cases ht : u.kind.isTraversable = true
      · have hmissing : u.isMissing = false := by
          by_contra h
          simp [isTraversable_of_isMissing (Bool.not_eq_false _ ▸ h)] at ht
        simp only [Except.map, Option.filter, hmissing, Bool.not_false, if_true, hwritable ▸ ht,
          Bool.not_true, Bool.false_eq_true, if_false, if_neg hlast, walk]
        cases u.slot? last with
        | error failure => rfl
        | ok slot => cases slot <;> rfl
      · have ht : u.kind.isTraversable = false := by simpa using ht
        have hwritable : u.kind.isWritable = false := hwritable ▸ ht
        have hslot := slot?_of_not_traversable ht last
        cases hmissing : u.isMissing <;>
          simp [Except.map, Option.filter, hmissing, hwritable, hslot]

theorem affected?_eq_find? (hv : v.Editable) (hlast : last ≠ Path.wildcard) :
    Run.affected? v segments last = v.find? (segments ++ [last]) :=
  affected?_eq_find?_of (fun _ hwalk => (hv.walk hwalk).isTraversable_eq) hlast

theorem writesAlong_of_affected?_none (hv : v.Editable)
    (h : Run.affected? v segments last = .ok none) :
    writesAlong (Path.below (segments ++ [last])) x v = [] := by
  rw [Path.below_concat]
  unfold Run.affected? at h
  split at h
  · simp at h
  · rename_i hnone
    rcases find?_eq_none.mp hnone with hwalk | ⟨u, hwalk, hmissing⟩
    · exact writesAlong_walk_none hv.keyed hwalk
    · rw [writesAlong_walk hv.keyed hwalk]
      exact writesAlong_of_not_traversable (isTraversable_of_isMissing hmissing)
  · rename_i container hfind
    have hwalk := (find?_eq_some.mp hfind).1
    rw [writesAlong_walk hv.keyed hwalk]
    split at h
    · rename_i hwritable
      refine writesAlong_of_not_traversable ?_
      rw [(hv.walk hwalk).isTraversable_eq]
      simpa using hwritable
    · split at h
      · simp at h
      · rename_i hlast
        rw [if_neg hlast]
        refine writesAlong_named_none fun found child hslot => ?_
        by_contra hmissing
        have hmissing : child.isMissing = false := by simpa using hmissing
        have hfound : container.find? [last] = .ok (some child) :=
          find?_eq_some.mpr ⟨by simp [walk, hslot], hmissing⟩
        simp [hfound] at h

theorem overwrite_of_affected? (hv : v.isWellKeyed = true) {y : Value}
    {writes : Option (List Write)} (ha : Run.affected? v segments last = .ok (some u))
    (h : v.overwrite (segments ++ [last]) y = .ok writes) :
    writes = some (writesAlong (Path.below (segments ++ [last])) (fun _ => y) v) := by
  rw [Path.below_concat]
  unfold Run.affected? at ha
  split at ha
  · simp at ha
  · simp at ha
  · rename_i container hfind
    have hwalk := (find?_eq_some.mp hfind).1
    rw [writesAlong_walk hv hwalk]
    simp only [overwrite, List.getLast?_concat, List.dropLast_concat, hwalk] at h
    split at ha
    · simp at ha
    · rename_i hwritable
      simp only [writesAt, hwritable, Bool.false_eq_true, if_false] at h
      split at ha
      · rename_i hlast
        simp only [hlast, if_true, Except.ok.injEq] at h
        rw [← h, if_pos hlast]
        simp only [keys, List.filterMap_map]
        rfl
      · rename_i hlast
        simp only [if_neg hlast] at h ⊢
        obtain ⟨hu, hmissing⟩ := find?_eq_some.mp ha
        simp only [walk] at hu
        split at hu
        · simp at hu
        · simp at hu
        · rename_i found child hslot
          obtain rfl : child = u := by simpa using hu
          simp only [hslot, Except.map, Option.map_some, Except.ok.injEq] at h
          have hkeys := distinct_children (everywhere_walk hv hwalk)
          rw [← h, writesAlong_named_last hkeys hslot hmissing]

theorem writesAlong_named (segments : List String) (x : Option Key → Value) (v : Value) :
    writesAlong (segments.map .named) x v =
      writesAlong (segments.map .named) (fun _ => x none) v := by
  induction segments generalizing v with
  | nil => rfl
  | cons segment rest ih =>
    cases rest with
    | nil => rfl
    | cons next rest =>
      simp only [List.map_cons] at ih
      simp only [List.map_cons, writesAlong, Stride.pick, ih]

/-- Below the first wildcard each branch is written on its own, found by its key. -/
theorem writesAlong_branches {id : Ident} {shape : Shape} {tag snapshot : Option Value}
    {slots : List Slot} (ht : shape.kind.isTraversable = true) (hkeys : Slots.Distinct slots) :
    writesAlong (.every :: Path.below (segments ++ [last])) x (node id shape tag snapshot slots) =
      (slots.map Prod.fst).flatMap fun k => ((Slots.get? k slots).map fun branch =>
        writesAlong (Path.below (segments ++ [last])) (fun _ => x (some k)) branch).getD [] := by
  obtain ⟨next, rest, hbelow⟩ : ∃ next rest, Path.below (segments ++ [last]) = next :: rest := by
    rw [Path.below_concat]
    cases segments <;> exact ⟨_, _, rfl⟩
  rw [hbelow, writesAlong, children_node ht, List.flatMap_map]
  refine List.flatMap_congr fun slot mem => ?_
  rw [Slots.get?_of_mem hkeys mem (Key.same_refl _)]
  rfl

section

variable {id : Ident} {shape : Shape} {tag snapshot : Option Value} {slots slots' : List Slot}
  {j k : Key} {branch : Value} {ws : List Write}

theorem IsTree.branches_apart (h : (node id shape tag snapshot slots).IsTree)
    (ht : shape.kind.isTraversable = true) {a b : Slot} (ha : a ∈ slots) (hb : b ∈ slots)
    (hab : a ≠ b) : ∀ i ∈ a.2.reach, i ∉ b.2.ids := by
  have hsymm : Std.Symm fun a b : Slot =>
      (∀ i ∈ a.2.reach, i ∉ b.2.ids) ∧ ∀ i ∈ b.2.reach, i ∉ a.2.ids :=
    ⟨fun _ _ hapart => hapart.symm⟩
  exact ((h.slots_apart ht).forall ha hb hab).1

/-- Writes that land in one branch leave the container around it as it is, but for its slots. -/
theorem IsTree.afterAll_branch (h : (node id shape tag snapshot slots).IsTree)
    (ht : shape.kind.isTraversable = true) (mem : (j, branch) ∈ slots)
    (hws : ∀ w ∈ ws, w.target ∈ branch.reach) :
    (node id shape tag snapshot slots').afterAll ws =
      node id shape tag snapshot (slots'.map fun slot => (slot.1, slot.2.afterAll ws)) :=
  h.afterAll_slots ht fun w hw => ⟨(j, branch), mem, hws w hw⟩

theorem IsTree.get?_other_branch (h : (node id shape tag snapshot slots).IsTree)
    (ht : shape.kind.isTraversable = true) (mem : (j, branch) ∈ slots)
    (hws : ∀ w ∈ ws, w.target ∈ branch.reach) (hjk : j.same k = false)
    (hsame : Slots.get? k slots' = Slots.get? k slots) :
    Slots.get? k (slots'.map fun slot => (slot.1, slot.2.afterAll ws)) = Slots.get? k slots := by
  rw [Slots.get?_map, hsame]
  cases hother : Slots.get? k slots with
  | none => rfl
  | some other =>
    obtain ⟨i, hi, memOther⟩ := get?_mem hother
    have hne : (j, branch) ≠ (i, other) := fun heq => by
      rw [(Prod.mk.inj heq).1, hi] at hjk
      simp at hjk
    have hleft : other.afterAll ws = other :=
      afterAll_of_not_mem fun w hw => h.branches_apart ht mem memOther hne _ (hws w hw)
    rw [Option.map_some, hleft]

end

end Value

/-- What a censor answers depends on the content of the value and on the path. -/
def Censor.AnswersBy (answer : Value → String → Value) : Censor → Prop
  | .literal x => ∀ v path, answer v path = x
  | .function f => ∀ history question next x, f history question next = .ok x →
      x = answer question.value.content question.path

/-- What a censor answers depends on the path alone. -/
def Censor.IsBlind (answer : String → Value) : Censor → Prop
  | .literal x => ∀ path, answer path = x
  | .function f => ∀ history question next x, f history question next = .ok x →
      x = answer question.path

theorem Censor.IsBlind.answersBy {answer : String → Value} {censor : Censor}
    (h : censor.IsBlind answer) : censor.AnswersBy fun _ path => answer path := by
  cases censor with
  | literal x => exact fun _ path => h path
  | function f => exact h

/-- What stays on record of questions. A literal is not asked. -/
def Censor.recorded (questions : List Consultation) : Censor → List Consultation
  | .literal _ => []
  | .function _ => questions

theorem Censor.recorded_append (a b : List Consultation) (censor : Censor) :
    censor.recorded (a ++ b) = censor.recorded a ++ censor.recorded b := by
  cases censor <;> rfl

/-- The path that a question tells, by the key that its first wildcard stands for. -/
def Path.instantiated (path : String) : Option Key → String
  | none => path
  | some k => instantiate path k.wording

/-- The answers for one path, by the key that its first wildcard stands for. -/
def Censor.answersAt (answer : String → Value) (path : String) : Option Key → Value
  | none => answer path
  | some k => answer (Path.instantiate path k.wording)

namespace Value

/-- The container that the first wildcard of a path is met at. -/
def wildcardAt? (v : Value) (segments : List String) : Option Value :=
  (v.find? (segments.takeWhile (· ≠ Path.wildcard))).toOption.join

/-- What the censor is asked about for one key that the first wildcard of a path stands for, or for
a path without wildcard. -/
def asked? (v : Value) (segments : List String) : Option Key → Option Value
  | none => (v.find? segments).toOption.join
  | some k => (v.wildcardAt? segments).bind fun container =>
    (Slots.get? k container.children).bind fun branch =>
      let suffix := (segments.dropWhile (· ≠ Path.wildcard)).drop 1
      match suffix.getLast? with
      | none => some branch
      | some last => (Run.affected? branch suffix.dropLast last).toOption.join

/-- The keys that the first wildcard of a path stands for, in order; a path without wildcard is
followed once. -/
def labels (v : Value) (segments : List String) : List (Option Key) :=
  if segments.contains Path.wildcard then
    (v.wildcardAt? segments).elim [] fun container => container.keys.map some
  else if segments.isEmpty then [] else [none]

/-- What a censor is asked while a path is applied. -/
def asks (v : Value) (path : String) (segments : List String) : List Consultation :=
  (v.labels segments).filterMap fun l => (v.asked? segments l).map fun u =>
    ⟨u, Path.instantiated path l⟩

/-- What a censor answers while a path is applied. -/
def answersTo (answer : Value → String → Value) (path : String) (segments : List String) (v : Value)
    (l : Option Key) : Value :=
  answer ((v.asked? segments l).getD null).content (Path.instantiated path l)

theorem answersTo_blind (answer : String → Value) (path : String) (segments : List String)
    (v : Value) : answersTo (fun _ path => answer path) path segments v =
      Censor.answersAt answer path := by
  funext l
  cases l <;> rfl

end Value

structure Workspace.Wrote (ws : List Write) (s s' : Workspace) : Prop where
  root : s'.root = s.root.afterAll ws
  writes : s'.writes = ws.reverse ++ s.writes

structure Workspace.Redacted (censor : Censor) (ws : List Write) (questions : List Consultation)
    (s s' : Workspace) : Prop extends s.Wrote ws s' where
  consultations : s'.consultations = (censor.recorded questions).reverse ++ s.consultations

namespace Workspace

theorem Wrote.refl (s : Workspace) : s.Wrote [] s := ⟨rfl, rfl⟩

theorem Wrote.trans {ws us : List Write} {s s' s'' : Workspace} (h : s.Wrote ws s')
    (h' : s'.Wrote us s'') : s.Wrote (ws ++ us) s'' := by
  constructor
  · rw [h'.root, h.root, Value.afterAll_append]
  · rw [h'.writes, h.writes, List.reverse_append, List.append_assoc]

variable {censor : Censor} {ws us : List Write} {asked more : List Consultation}
  {s s' s'' : Workspace}

theorem Redacted.refl (censor : Censor) (s : Workspace) : s.Redacted censor [] [] s :=
  ⟨Wrote.refl s, by cases censor <;> rfl⟩

theorem Redacted.trans (h : s.Redacted censor ws asked s') (h' : s'.Redacted censor us more s'') :
    s.Redacted censor (ws ++ us) (asked ++ more) s'' := by
  refine ⟨h.toWrote.trans h'.toWrote, ?_⟩
  rw [h'.consultations, h.consultations, Censor.recorded_append, List.reverse_append,
    List.append_assoc]

end Workspace

namespace Run

open Workspace

variable {answer : Value → String → Value} {censor : Censor} {s : Workspace}

theorem replacement_redacted (h : censor.AnswersBy answer) (v : Value) (path : String) :
    Leaves (censor.replacement v path) s
      (fun x s' => x = answer v.content path ∧ s.Redacted censor [] [⟨v, path⟩] s')
      (fun _ => True) := by
  cases censor with
  | literal x => exact ⟨(h v.content path).symm, Wrote.refl s, rfl⟩
  | function f =>
    cases hf : f s.consultations ⟨v, path⟩ s.next with
    | error failure =>
      simp only [Leaves, Censor.replacement, bind, EStateM.bind, get, getThe, MonadStateOf.get,
        EStateM.get, set, EStateM.set, hf, ofExcept]
      trivial
    | ok x =>
      simp only [Leaves, Censor.replacement, bind, EStateM.bind, get, getThe, MonadStateOf.get,
        EStateM.get, set, EStateM.set, hf, ofExcept]
      exact ⟨h _ _ _ _ hf, ⟨rfl, rfl⟩, rfl⟩

theorem performAll_redacted (censor : Censor) {ws : List Write} :
    Leaves (performAll ws) s (fun _ s' => s.Redacted censor ws [] s') (fun _ => True) := by
  induction ws generalizing s with
  | nil => exact Redacted.refl censor s
  | cons w rest ih =>
    have hfirst : Leaves (perform w) s (fun _ s' => s.Redacted censor [w] [] s') fun _ => True :=
      ⟨⟨rfl, rfl⟩, by cases censor <;> rfl⟩
    rw [performAll, leaves_bind]
    exact hfirst.mono fun _ s' hs' => ih.mono fun _ s'' hs'' => hs'.trans hs''

theorem replacement_then_redacted {α : Type} {ws : List Write} {questions : List Consultation}
    (h : censor.AnswersBy answer) (v : Value) (path : String) {next : Value → Run α}
    (hnext : ∀ s', s'.root = s.root → Leaves (next (answer v.content path)) s'
      (fun _ s'' => s'.Redacted censor ws questions s'') fun _ => True) :
    Leaves (censor.replacement v path >>= next) s
      (fun _ s' => s.Redacted censor ws (⟨v, path⟩ :: questions) s') fun _ => True := by
  rw [leaves_bind]
  refine (replacement_redacted h v path).mono fun x s' hs' => ?_
  rw [hs'.1]
  exact (hnext s' hs'.2.root).mono fun _ s'' hs'' => hs'.2.trans hs''

theorem replaceEach_redacted {path : String} {container : Value} {slots : List Slot}
    {x : Option Key → Value} (h : censor.AnswersBy answer) (hx : ∀ slot ∈ slots,
      x (some slot.1) = answer slot.2.content (Path.instantiate path slot.1.wording)) :
    Leaves (replaceEach censor path container slots) s
      (fun _ s' => s.Redacted censor
        (slots.filterMap fun slot => container.writeTo slot.1 (x (some slot.1)))
        (slots.map fun slot => ⟨slot.2, Path.instantiate path slot.1.wording⟩) s')
      (fun _ => True) := by
  induction slots generalizing s with
  | nil => exact Redacted.refl censor s
  | cons slot rest ih =>
    obtain ⟨k, v⟩ := slot
    obtain ⟨hslot, hrest⟩ := List.forall_mem_cons.mp hx
    rw [replaceEach, List.map_cons]
    refine leaves_replacementAt (fun _ => ?_) trivial
    refine replacement_then_redacted h v _ fun s' _ => ?_
    rw [leaves_bind]
    refine (performAll_redacted censor).mono fun _ t ht => ?_
    rw [leaves_bind]
    refine (ih hrest).mono fun _ t' ht' => ?_
    have hws : ((k, v) :: rest).filterMap (fun slot =>
          container.writeTo slot.1 (x (some slot.1))) =
        (container.writeTo k (answer v.content (Path.instantiate path k.wording))).toList ++
          rest.filterMap fun slot => container.writeTo slot.1 (x (some slot.1)) := by
      rw [List.filterMap_eq_flatMap_toList, List.flatMap_cons, ← List.filterMap_eq_flatMap_toList,
        hslot]
    rw [hws]
    exact ht.trans ht'

theorem replaceAt_redacted {path : String} {segments : List String} (h : censor.AnswersBy answer)
    (hroot : s.root.Editable) (hw : segments.contains Path.wildcard = false) :
    Leaves (replaceAt censor path segments) s
      (fun _ s' => s.Redacted censor (Value.writesAlong (Path.strides segments)
        (Value.answersTo answer path segments s.root) s.root) (s.root.asks path segments) s')
      (fun _ => True) := by
  unfold replaceAt
  rw [leaves_bind, leaves_root, leaves_bind]
  refine leaves_ofExcept (fun found hfound => ?_) trivial
  have hasked : s.root.asked? segments none = found := by
    rw [Value.asked?, hfound]
    rfl
  rcases List.eq_nil_or_concat' segments with rfl | ⟨suffix, last, rfl⟩
  · cases found with
    | none => exact Redacted.refl censor s
    | some v =>
      rw [leaves_bind]
      refine (replacement_redacted h v path).mono fun x s' _ => ?_
      rw [leaves_bind, leaves_root, leaves_bind]
      exact leaves_ofExcept (fun writes hwrites => by simp [Value.overwrite] at hwrites) trivial
  · have hlast : last ≠ Path.wildcard := by
      intro heq
      simp [heq] at hw
    have hstrides : Path.strides (suffix ++ [last]) = Path.below (suffix ++ [last]) := by
      rw [Path.strides_of_no_wildcard hw, Path.below_concat, if_neg hlast, List.map_append]
      rfl
    have hsame : Value.writesAlong (Path.below (suffix ++ [last]))
        (Value.answersTo answer path (suffix ++ [last]) s.root) s.root =
        Value.writesAlong (Path.below (suffix ++ [last]))
          (fun _ => answer (found.getD .null).content path) s.root := by
      rw [← hstrides, Path.strides_of_no_wildcard hw, Value.writesAlong_named, Value.answersTo,
        hasked]
      rfl
    have hasks : s.root.asks path (suffix ++ [last]) = found.toList.map fun v => ⟨v, path⟩ := by
      have hlabels : s.root.labels (suffix ++ [last]) = [none] := by
        rw [Value.labels, hw, if_neg Bool.false_ne_true, if_neg (by simp)]
      rw [Value.asks, hlabels, List.filterMap_cons, hasked]
      cases found <;> rfl
    rw [← Value.affected?_eq_find? hroot hlast] at hfound
    rw [hstrides, hsame, hasks]
    cases found with
    | none =>
      rw [Value.writesAlong_of_affected?_none hroot hfound]
      exact Redacted.refl censor s
    | some v =>
      refine replacement_then_redacted h v _ fun s' hs' => ?_
      rw [leaves_bind, leaves_root, leaves_bind, hs']
      refine leaves_ofExcept (fun writes hwrites => ?_) trivial
      rw [Value.overwrite_of_affected? hroot.keyed hfound hwrites]
      dsimp only
      rw [leaves_bind]
      exact (performAll_redacted censor).mono fun _ t ht => ht

/-- The branches that are still to come are as they were, since no write so far landed in them. -/
theorem replaceBelow_redacted {path last : String} {suffix : List String} {id : Ident}
    {shape : Shape} {tag snapshot : Option Value} {slots slots' : List Slot} {keys : List Key}
    {x : Option Key → Value} (h : censor.AnswersBy answer)
    (hv : (Value.node id shape tag snapshot slots).Editable)
    (ht : shape.kind.isTraversable = true)
    (hkeys : keys.Pairwise fun j k => j.same k = false)
    (hsame : ∀ k ∈ keys, Slots.get? k slots' = Slots.get? k slots)
    (hx : ∀ k ∈ keys, ∀ branch ∈ Slots.get? k slots, ∀ u,
      affected? branch suffix last = .ok (some u) →
        x (some k) = answer u.content (Path.instantiate path k.wording)) :
    Leaves (replaceBelow censor path suffix last (.node id shape tag snapshot slots') keys) s
      (fun _ s' => s.Redacted censor
        (keys.flatMap fun k => ((Slots.get? k slots).map fun branch =>
          Value.writesAlong (Path.below (suffix ++ [last])) (fun _ => x (some k)) branch).getD [])
        (keys.filterMap fun k => ((Slots.get? k slots).bind fun branch =>
          (affected? branch suffix last).toOption.join).map fun u =>
            ⟨u, Path.instantiate path k.wording⟩) s')
      (fun _ => True) := by
  induction keys generalizing s slots' with
  | nil => exact Redacted.refl censor s
  | cons key rest ih =>
    obtain ⟨hfirst, hrest⟩ := List.pairwise_cons.mp hkeys
    have hlater := fun k mem => hsame k (List.mem_cons_of_mem _ mem)
    have hxlater := fun k mem => hx k (List.mem_cons_of_mem _ mem)
    rw [replaceBelow, Value.children_node ht, hsame key List.mem_cons_self, List.flatMap_cons,
      List.filterMap_cons]
    cases hbranch : Slots.get? key slots with
    | none => trivial
    | some branch =>
      obtain ⟨j, hj, mem⟩ := Value.get?_mem hbranch
      have hedit : branch.Editable := hv.slot ht mem
      dsimp only
      rw [leaves_bind]
      refine leaves_ofExcept (fun found hfound => ?_) trivial
      have hasked : (affected? branch suffix last).toOption.join = found := by
        rw [hfound]
        rfl
      simp only [Option.map_some, Option.getD_some, Option.bind_some, hasked]
      cases found with
      | none =>
        simp only [Value.writesAlong_of_affected?_none hedit hfound, List.nil_append,
          Option.map_none]
        exact ih hrest hlater hxlater
      | some u =>
        simp only [Option.map_some]
        refine leaves_replacementAt (fun _ => ?_) trivial
        refine replacement_then_redacted h u _ fun s' _ => ?_
        rw [leaves_bind]
        refine leaves_ofExcept (fun writes hwrites => ?_) trivial
        rw [Value.overwrite_of_affected? hedit.keyed hfound hwrites,
          hx key List.mem_cons_self branch hbranch u hfound]
        dsimp only
        rw [leaves_bind]
        refine (performAll_redacted censor).mono fun _ t hwrote => ?_
        rw [leaves_bind]
        have htarget := fun w hw => (@Value.mem_writesAlong (Path.below (suffix ++ [last]))
          (fun _ => answer u.content (Path.instantiate path key.wording)) branch w hw).1
        rw [hv.afterAll_branch ht mem htarget]
        refine (ih hrest (fun k memKey => ?_) hxlater).mono fun _ t' hwrote' =>
          hwrote.trans hwrote'
        have hjk : j.same k = false := by
          by_contra hsame
          have := Key.same_trans (Key.same_comm j key ▸ hj) (Bool.not_eq_false _ ▸ hsame)
          simp [hfirst k memKey] at this
        rw [hv.get?_other_branch ht mem htarget hjk (hlater k memKey)]

section Container

variable {path : String} {segments : List String} {id : Ident} {shape : Shape}
variable {tag snapshot : Option Value} {slots : List Slot}

/-- A wildcard at the end asks about each slot of its container and writes the answer there. -/
theorem replaceEach_at_wildcard (h : censor.AnswersBy answer)
    (hv : (Value.node id shape tag snapshot slots).Editable) (ht : shape.kind.isTraversable = true)
    (hat : s.root.wildcardAt? segments = some (.node id shape tag snapshot slots))
    (hsuffix : (segments.dropWhile (· ≠ Path.wildcard)).drop 1 = []) :
    Leaves (replaceEach censor path (.node id shape tag snapshot slots) slots) s
      (fun _ s' => s.Redacted censor
        (Value.writesAlong (.every :: Path.below [])
          (Value.answersTo answer path segments s.root) (.node id shape tag snapshot slots))
        (slots.filterMap fun slot => (s.root.asked? segments (some slot.1)).map fun u =>
          ⟨u, Path.instantiate path slot.1.wording⟩) s')
      (fun _ => True) := by
  have hdistinct : Slots.Distinct slots :=
    Value.keysDiffer_iff.mp ((Value.everywhere_node ht).mp hv.keyed).1
  have hasked : ∀ slot ∈ slots, s.root.asked? segments (some slot.1) = some slot.2 := by
    intro slot mem
    simp only [Value.asked?, hat, Option.bind_some, Value.children_node ht, hsuffix,
      List.getLast?_nil, Slots.get?_of_mem hdistinct mem (Key.same_refl _)]
  have hasks : (slots.filterMap fun slot => (s.root.asked? segments (some slot.1)).map fun u =>
        (⟨u, Path.instantiate path slot.1.wording⟩ : Consultation)) =
      slots.map fun slot => ⟨slot.2, Path.instantiate path slot.1.wording⟩ := by
    rw [← List.filterMap_eq_map]
    exact List.filterMap_congr fun slot mem => by simp [hasked slot mem]
  have hwrites : Value.writesAlong (.every :: Path.below [])
      (Value.answersTo answer path segments s.root) (.node id shape tag snapshot slots) =
      slots.filterMap fun slot => (Value.node id shape tag snapshot slots).writeTo slot.1
        (Value.answersTo answer path segments s.root (some slot.1)) := by
    rw [Path.below, Value.writesAlong, Value.children_node ht]
    rfl
  rw [hasks, hwrites]
  refine replaceEach_redacted h fun slot mem => ?_
  rw [Value.answersTo, hasked slot mem]
  rfl

/-- A wildcard before other segments asks about what they lead to from each slot of its container,
and writes the answers there. -/
theorem replaceBelow_at_wildcard {suffix : List String} {last : String}
    (h : censor.AnswersBy answer) (hv : (Value.node id shape tag snapshot slots).Editable)
    (ht : shape.kind.isTraversable = true)
    (hat : s.root.wildcardAt? segments = some (.node id shape tag snapshot slots))
    (hsuffix : (segments.dropWhile (· ≠ Path.wildcard)).drop 1 = suffix ++ [last]) :
    Leaves (replaceBelow censor path suffix last (.node id shape tag snapshot slots)
        (slots.map Prod.fst)) s
      (fun _ s' => s.Redacted censor
        (Value.writesAlong (.every :: Path.below (suffix ++ [last]))
          (Value.answersTo answer path segments s.root) (.node id shape tag snapshot slots))
        (slots.filterMap fun slot => (s.root.asked? segments (some slot.1)).map fun u =>
          ⟨u, Path.instantiate path slot.1.wording⟩) s')
      (fun _ => True) := by
  have hdistinct : Slots.Distinct slots :=
    Value.keysDiffer_iff.mp ((Value.everywhere_node ht).mp hv.keyed).1
  have hasked : ∀ k, s.root.asked? segments (some k) = (Slots.get? k slots).bind
      fun branch => (affected? branch suffix last).toOption.join := by
    intro k
    simp only [Value.asked?, hat, Option.bind_some, Value.children_node ht, hsuffix,
      List.getLast?_concat, List.dropLast_concat]
  have hasks : (slots.filterMap fun slot => (s.root.asked? segments (some slot.1)).map fun u =>
        (⟨u, Path.instantiate path slot.1.wording⟩ : Consultation)) =
      (slots.map Prod.fst).filterMap fun k => ((Slots.get? k slots).bind fun branch =>
        (affected? branch suffix last).toOption.join).map fun u =>
          ⟨u, Path.instantiate path k.wording⟩ := by
    rw [List.filterMap_map]
    exact List.filterMap_congr fun slot _ => by simp [hasked]
  rw [hasks, Value.writesAlong_branches ht hdistinct]
  refine replaceBelow_redacted h hv ht (List.pairwise_map.mpr hdistinct)
    (fun _ _ => rfl) fun k _ branch hbranch u hu => ?_
  rw [Value.answersTo, hasked, Option.mem_def.mp hbranch, Option.bind_some, hu]
  rfl

end Container

/-- The expansion of a path makes the writes along its strides, with the answers to what it asks. -/
theorem expand_redacted {path : String} {segments : List String} (h : censor.AnswersBy answer)
    (hroot : s.root.Editable) :
    Leaves (expand censor path segments) s
      (fun _ s' => s.Redacted censor (Value.writesAlong (Path.strides segments)
        (Value.answersTo answer path segments s.root) s.root) (s.root.asks path segments) s')
      (fun _ => True) := by
  unfold expand
  split
  · trivial
  rename_i hw
  have hw : segments.contains Path.wildcard = true := by simpa using hw
  rw [leaves_bind, leaves_root, leaves_bind]
  refine leaves_ofExcept (fun found hfound => ?_) trivial
  have hat : s.root.wildcardAt? segments = found := by
    rw [Value.wildcardAt?, hfound]
    rfl
  rw [Path.strides_of_wildcard hw, Value.asks, Value.labels, if_pos hw, hat]
  cases found with
  | none =>
    rw [Value.writesAlong_find?_none hroot.keyed hfound]
    exact Redacted.refl censor s
  | some container =>
    have hwalk := (Value.find?_eq_some.mp hfound).1
    have hedit := hroot.walk hwalk
    rw [Value.writesAlong_walk hroot.keyed hwalk]
    dsimp only
    rw [Option.elim_some]
    by_cases ht : container.kind.isTraversable = true
    swap
    · have ht : container.kind.isTraversable = false := by simpa using ht
      have hkeys : container.keys = [] := by
        rw [Value.keys, Value.children_of_not_traversable ht]
        rfl
      have hwritable : ¬container.kind.isWritable = true := by
        rw [← hedit.isTraversable_eq, ht]
        simp
      rw [Value.writesAlong_of_not_traversable ht, hkeys]
      split
      · rw [if_neg hwritable]
        exact Redacted.refl censor s
      · exact Redacted.refl censor s
    cases container with
    | scalar sc => simp [Value.isTraversable_scalar] at ht
    | node id shape tag snapshot slots =>
      have hkeys : (Value.node id shape tag snapshot slots).keys = slots.map Prod.fst := by
        rw [Value.keys, Value.children_node ht]
      rw [hkeys, List.filterMap_map, List.filterMap_map]
      rcases List.eq_nil_or_concat' ((segments.dropWhile (· ≠ Path.wildcard)).drop 1) with
        hsuffix | ⟨suffix, last, hsuffix⟩
      · have hwritable : (Value.node id shape tag snapshot slots).kind.isWritable = true := by
          rw [← hedit.isTraversable_eq]
          exact ht
        rw [hsuffix]
        simp only [List.getLast?_nil, hwritable, if_true, Value.children_node ht]
        exact replaceEach_at_wildcard h hedit ht hat hsuffix
      · rw [hsuffix]
        simp only [List.getLast?_concat, List.dropLast_concat]
        exact replaceBelow_at_wildcard h hedit ht hat hsuffix

end Run

end Redaction
