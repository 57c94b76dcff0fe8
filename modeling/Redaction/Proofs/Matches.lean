import Redaction.Proofs.TreeWrites

/-!
# The matches of a wildcard

What the expansion of a wildcard is going to do is known before it begins. Each child of a container
in which the segments after the wildcard lead to a slot that can be written is a match, and so is
each slot of the container itself when no segment follows. In a tree the branches do not meet, so no
write made for one match changes another one.

Main statements: `Run.expand_eq_answerEach` and `Run.expand_visits`.
-/

namespace Redaction

/-- A place that a wildcard path redacts: the key that its first wildcard stands for, the value that
the censor is asked about, and the slots of a container that are to hold the answer. -/
structure Match where
  label : Key
  value : Value
  holder : Value
  keys : List Key

namespace Match

def writes (m : Match) (x : Value) : List Write := m.keys.filterMap fun k => m.holder.writeTo k x

def question (path : String) (m : Match) : Consultation :=
  ⟨m.value, Path.instantiate path m.label.wording⟩

theorem writes_of_writable {m : Match} (hw : m.holder.kind.isWritable = true) (x : Value) :
    ∃ id, m.holder.ident? = some id ∧
      m.writes x = m.keys.map fun k => ⟨id, k, Value.settled m.holder.kind x⟩ := by
  obtain ⟨id, shape, tag, snapshot, slots, hholder, hshape⟩ := Value.exists_node_of_isWritable hw
  refine ⟨id, by rw [hholder]; rfl, ?_⟩
  rw [Match.writes, hholder]
  simp only [Value.writeTo_node hshape]
  exact congrFun List.filterMap_eq_map' _

theorem writes_of_not_writable {m : Match} (hw : m.holder.kind.isWritable = false) (x : Value) :
    m.writes x = [] := by
  refine List.filterMap_eq_nil_iff.mpr fun k _ => ?_
  cases hwrite : m.holder.writeTo k x with
  | none => rfl
  | some w =>
    obtain ⟨shape, tag, snapshot, slots, hholder, hshape, _⟩ := Value.writeTo_eq_some hwrite
    rw [hholder] at hw
    exact absurd hshape (by simpa [Value.kind] using hw)

end Match

namespace Value

/-- The match in one branch, followed along the segments `suffix` and `last`. -/
def match? (branch : Value) (label : Key) (suffix : List String) (last : String) : Option Match :=
  (branch.find? suffix).toOption.join.bind fun holder =>
    if !holder.kind.isWritable then none
    else if last = Path.wildcard then some ⟨label, holder, holder, holder.keys⟩
    else ((holder.slot? last).toOption.join.filter fun slot => !slot.2.isMissing).map fun slot =>
      ⟨label, slot.2, holder, [slot.1]⟩

/-- The matches of a wildcard that a container is met at and of the segments after it, in the order
of the children. -/
def matchesBelow (rest : List String) (container : Value) : List Match :=
  match rest.getLast? with
  | none =>
    if container.kind.isWritable then
      container.children.map fun slot => ⟨slot.1, slot.2, container, [slot.1]⟩
    else []
  | some last => container.children.filterMap fun slot => slot.2.match? slot.1 rest.dropLast last

/-- The container once those of its matches that are under the given keys hold what is given for
them. -/
def answeredUnder (rest : List String) (keys : List Key) (held : Key → Value)
    (container : Value) : Value :=
  match rest.getLast? with
  | none => if container.kind.isWritable then container.assign keys held else container
  | some last => container.withSlots fun k child =>
    some (((child.match? k rest.dropLast last).filter fun _ => keys.any fun j => j.same k).elim
      child fun m => child.setAt (child.trail rest.dropLast) (m.holder.assign m.keys fun _ => held k))

end Value

namespace Run

/-- Asks for an answer to each match in turn and stores it, and returns the number of matches. -/
def answerEach (censor : Censor) (path : String) : List Match → Run Nat
  | [] => pure 0
  | m :: rest => do
    let x ← censor.replacementAt m.value path m.label
    performAll (m.writes x)
    let count ← answerEach censor path rest
    return count + 1

end Run

/-- A censor function gives these answers to the questions of the matches, one after another, each
with the history it has by then. -/
def CensorFunction.Gives (f : CensorFunction) (path : String) (answer : Key → Value) :
    List Consultation → Ident → List Match → Prop
  | _, _, [] => True
  | asked, next, m :: rest =>
    f asked (m.question path) next = .ok (answer m.label) ∧
      f.Gives path answer (m.question path :: asked) (max next (answer m.label).bound) rest

theorem CensorFunction.Gives.congr {f : CensorFunction} {path : String}
    {answer answer' : Key → Value} {asked : List Consultation} {next : Ident} {ms : List Match}
    (h : f.Gives path answer asked next ms)
    (heq : ∀ m ∈ ms, answer m.label = answer' m.label) : f.Gives path answer' asked next ms := by
  induction ms generalizing asked next with
  | nil => trivial
  | cons m rest ih =>
    obtain ⟨hhead, hrest⟩ := List.forall_mem_cons.mp heq
    exact ⟨hhead ▸ h.1, hhead ▸ ih h.2 hrest⟩

namespace Value

/-! ## One branch -/

section

variable {branch : Value} {label : Key} {suffix : List String} {last : String} {m : Match}

theorem affected?_eq_ok (label : Key) {found : Option Value}
    (h : Run.affected? branch suffix last = .ok found) :
    found = (branch.match? label suffix last).map Match.value := by
  rw [Run.affected?] at h
  rw [match?]
  split at h
  · cases h
  · rename_i hfind
    obtain rfl := Except.ok.inj h
    rw [hfind]
    rfl
  · rename_i holder hfind
    rw [hfind]
    simp only [Except.toOption, Option.join_some, Option.bind_some]
    by_cases hw : holder.kind.isWritable = true
    swap
    · obtain rfl : none = found := by simpa [hw] using h
      simp [hw]
    by_cases hlast : last = Path.wildcard
    · obtain rfl : some holder = found := by simpa [hw, hlast] using h
      simp [hw, hlast]
    simp only [hw, hlast, Bool.not_true, Bool.false_eq_true, if_false] at h ⊢
    cases hslot : holder.slot? last with
    | error failure => simp [find?, walk, hslot, Except.map] at h
    | ok slot =>
      rcases slot with _ | ⟨k, child⟩
      · obtain rfl : none = found := by simpa [find?, walk, hslot, Except.map] using h
        rfl
      · obtain rfl : (some child).filter (fun x => !x.isMissing) = found := by
          simpa [find?, walk, hslot, Except.map] using h
        cases hmissing : child.isMissing <;> simp [Option.filter, hmissing]

theorem affected?_eq_match? (label : Key) (hshort : Path.HasShortNumerals (suffix ++ [last])) :
    Run.affected? branch suffix last =
      .ok ((branch.match? label suffix last).map Match.value) := by
  obtain ⟨found, hfound⟩ := Run.affected?_isOk branch hshort
  rw [hfound, affected?_eq_ok label hfound]

theorem match?_eq_some (h : branch.match? label suffix last = some m) :
    m.label = label ∧ branch.walk suffix = .ok (some m.holder) ∧
      m.holder.kind.isWritable = true ∧
      (last = Path.wildcard ∧ m.keys = m.holder.keys ∨
        last ≠ Path.wildcard ∧ ∃ found, m.holder.slot? last = .ok (some (found, m.value)) ∧
          m.keys = [found]) := by
  obtain ⟨holder, hholder, h⟩ := Option.bind_eq_some_iff.mp h
  have hwalk : branch.walk suffix = .ok (some holder) := by
    cases hfind : branch.find? suffix with
    | error failure => simp [hfind, Except.toOption] at hholder
    | ok found =>
      obtain rfl : found = some holder := by simpa [hfind, Except.toOption] using hholder
      exact (find?_eq_some.mp hfind).1
  by_cases hw : holder.kind.isWritable = true
  swap
  · simp [hw] at h
  by_cases hlast : last = Path.wildcard
  · obtain rfl : ⟨label, holder, holder, holder.keys⟩ = m := by simpa [hw, hlast] using h
    exact ⟨rfl, hwalk, hw, .inl ⟨hlast, rfl⟩⟩
  · simp only [hw, hlast, Bool.not_true, Bool.false_eq_true, if_false] at h
    obtain ⟨⟨found, child⟩, hfound, rfl⟩ := Option.map_eq_some_iff.mp h
    obtain ⟨hjoin, _⟩ := Option.filter_eq_some_iff.mp hfound
    refine ⟨rfl, hwalk, hw, .inr ⟨hlast, found, ?_, rfl⟩⟩
    cases hslot : holder.slot? last with
    | error failure => simp [hslot, Except.toOption] at hjoin
    | ok slot => simpa [hslot, Except.toOption] using hjoin

theorem writes_singleton {found : Key} (h : m.keys = [found]) (x : Value) :
    m.writes x = (m.holder.writeTo found x).toList := by
  rw [Match.writes, h]
  cases hx : m.holder.writeTo found x <;> simp [hx]

theorem overwrite_singleton {v child x : Value} {k : Key} (hlast : last ≠ Path.wildcard)
    (hslot : v.slot? last = .ok (some (k, child))) : v.overwrite [last] x =
      .ok (if v.kind.isWritable then some (v.writeTo k x).toList else none) := by
  cases hw : v.kind.isWritable <;> simp [overwrite, walk, writesAt, hw, hlast, hslot, Except.map]

theorem overwrite_match (h : branch.match? label suffix last = some m) (x : Value) :
    branch.overwrite (suffix ++ [last]) x = .ok (some (m.writes x)) := by
  obtain ⟨_, hwalk, hw, ⟨hlast, hkeys⟩ | ⟨hlast, found, hslot, hkeys⟩⟩ := match?_eq_some h
  · rw [overwrite_append hwalk (by simp)]
    simp [overwrite, walk, writesAt, hw, hlast, Match.writes, hkeys]
  · rw [overwrite_append hwalk (by simp), writes_singleton hkeys, overwrite_singleton hlast hslot,
      if_pos hw]

theorem target_of_match (h : branch.match? label suffix last = some m) {x : Value} {w : Write}
    (hw : w ∈ m.writes x) : w.target ∈ branch.reach := by
  obtain ⟨_, hwalk, _⟩ := match?_eq_some h
  obtain ⟨k, _, hk⟩ := List.mem_filterMap.mp hw
  exact (walk_subset hwalk).1 (ident?_of_writeTo hk).2

theorem IsTree.afterAll_match (hv : branch.IsTree)
    (h : branch.match? label suffix last = some m) (hlast : last ≠ Path.wildcard) (x : Value) :
    branch.afterAll (m.writes x) =
      branch.setAt (branch.trail suffix) (m.holder.assign m.keys fun _ => x) := by
  obtain ⟨_, hwalk, hw, ⟨hwild, _⟩ | ⟨_, found, hslot, hkeys⟩⟩ := match?_eq_some h
  · exact absurd hwild hlast
  obtain ⟨id, shape, tag, snapshot, slots, hholder, hshape⟩ := exists_node_of_isWritable hw
  have hwrite : (node id shape tag snapshot slots).writeTo found x =
      some ⟨id, found, settled shape.kind x⟩ := writeTo_node hshape found x
  rw [← hholder] at hwrite
  rw [writes_singleton hkeys, hwrite, Option.toList_some, hkeys,
    ← (hv.walk hwalk).after_writeTo (slot?_eq_some.mp hslot).1 hwrite]
  exact hv.afterAll_at (at?_trail hwalk) fun w mem =>
    List.mem_singleton.mp mem ▸ (ident?_of_writeTo hwrite).2

end

/-! ## All branches -/

section

variable {container : Value} {rest : List String} {answer held : Key → Value}

theorem pairwise_matchesBelow (hkeys : Slots.Distinct container.children) :
    (container.matchesBelow rest).Pairwise fun a b => a.label.same b.label = false := by
  unfold matchesBelow
  split
  · split
    · exact List.pairwise_map.mpr hkeys
    · exact .nil
  · refine List.Pairwise.filterMap _ (fun a b hab m hm m' hm' => ?_) hkeys
    rw [(match?_eq_some hm).1, (match?_eq_some hm').1]
    exact hab

theorem target_of_mem_matchesBelow {m : Match} (h : m ∈ container.matchesBelow rest) {x : Value}
    {w : Write} (hw : w ∈ m.writes x) : w.target ∈ container.reach := by
  unfold matchesBelow at h
  split at h
  · split at h
    · obtain ⟨slot, _, rfl⟩ := List.mem_map.mp h
      obtain ⟨k, _, hk⟩ := List.mem_filterMap.mp hw
      exact (ident?_of_writeTo hk).2
    · cases h
  · obtain ⟨slot, mem, hm⟩ := List.mem_filterMap.mp h
    exact (child_subset mem).1 (target_of_match hm hw)

/-- Slots of a container are assigned if their keys are among those given, however these are
spelled. -/
theorem assign_filter (keys : List Key) : container.assign
    (container.keys.filter fun k => keys.any fun j => j.same k) held =
      container.assign keys held := by
  refine withSlots_congr fun slot mem => ?_
  have hany : ((container.keys.filter fun k => keys.any fun j => j.same k).any fun j =>
      j.same slot.1) = keys.any fun j => j.same slot.1 := by
    rw [Bool.eq_iff_iff, List.any_eq_true, List.any_eq_true]
    constructor
    · rintro ⟨k, hk, hsame⟩
      obtain ⟨j, hj, hjk⟩ := List.any_eq_true.mp (List.mem_filter.mp hk).2
      exact ⟨j, hj, Key.same_trans hjk hsame⟩
    · rintro ⟨j, hj, hsame⟩
      exact ⟨slot.1, List.mem_filter.mpr ⟨List.mem_map_of_mem mem,
        List.any_eq_true.mpr ⟨j, hj, hsame⟩⟩, Key.same_refl _⟩
  rw [hany]

theorem IsTree.afterAll_own_matches {id : Ident} {shape : Shape} {tag snapshot : Option Value}
    {slots chosen : List Slot} (hv : (node id shape tag snapshot slots).IsTree)
    (hw : shape.kind.isWritable = true) (hchosen : chosen.Sublist slots)
    (hheld : Standing (fun m => m.writes (answer m.label)) (fun m => answer m.label)
      (fun m => held m.label) (chosen.map fun slot =>
        (⟨slot.1, slot.2, node id shape tag snapshot slots, [slot.1]⟩ : Match))) :
    (node id shape tag snapshot slots).afterAll ((chosen.map fun slot =>
        (⟨slot.1, slot.2, node id shape tag snapshot slots, [slot.1]⟩ : Match)).flatMap fun m =>
          m.writes (answer m.label)) =
      (node id shape tag snapshot slots).assign (chosen.map Prod.fst) held := by
  have ht := isTraversable_of_isWritable hw
  have hwrites : ∀ (k : Key) (x v : Value),
      Match.writes ⟨k, v, node id shape tag snapshot slots, [k]⟩ x =
        [⟨id, k, settled shape.kind x⟩] := fun k x v => by
    rw [writes_singleton rfl, writeTo_node hw, Option.toList_some]
  obtain ⟨htag, hsnapshot⟩ := hv.not_mem_options ht (mem_reach_node.mpr ⟨ht, .inl rfl⟩)
  have hdistinct : Slots.Distinct slots := keysDiffer_iff.mp ((everywhere_node ht).mp hv.keyed).1
  rw [standing_map] at hheld
  simp only [Function.comp_def, hwrites] at hheld
  simp only [List.flatMap_map, hwrites, ← List.map_eq_flatMap]
  have hall := afterAll_chosen ht htag hsnapshot (fun slot mem => hv.ident_not_mem ht mem)
    hdistinct ((Slots.distinct_iff.mp hdistinct).sublist (hchosen.map Prod.fst))
    (hchosen.map Prod.fst).subset (standing_map.mpr hheld)
  rwa [List.map_map] at hall

theorem IsTree.afterAll_branch_matches {id : Ident} {shape : Shape} {tag snapshot : Option Value}
    {slots : List Slot} {suffix : List String} {last : String} {pick : Slot → Option Match}
    (hv : (node id shape tag snapshot slots).IsTree) (ht : shape.kind.isTraversable = true)
    (hlast : last ≠ Path.wildcard)
    (hpick : ∀ slot, ∀ m ∈ pick slot, slot.2.match? slot.1 suffix last = some m)
    (hheld : Standing (fun m => m.writes (answer m.label)) (fun m => answer m.label)
      (fun m => held m.label) (slots.filterMap pick)) :
    (node id shape tag snapshot slots).afterAll
        ((slots.filterMap pick).flatMap fun m => m.writes (answer m.label)) =
      (node id shape tag snapshot slots).withSlots fun k child => some ((pick (k, child)).elim child
        fun m => child.setAt (child.trail suffix) (m.holder.assign m.keys fun _ => held k)) := by
  rw [List.filterMap_eq_flatMap_toList, List.flatMap_assoc]
  refine hv.afterAll_branches ht (fun slot => (pick slot).elim slot.2
    fun m => slot.2.setAt (slot.2.trail suffix) (m.holder.assign m.keys fun _ => held slot.1))
    (fun slot _ w hw => ?_) fun before slot after heq => ?_
  · obtain ⟨m, hm, hw⟩ := List.mem_flatMap.mp hw
    exact target_of_match (hpick slot m (Option.mem_toList.mp hm)) hw
  have hmem : slot ∈ slots := heq ▸ List.mem_append_right before List.mem_cons_self
  have hfree : ∀ w ∈ after.flatMap fun slot => (pick slot).toList.flatMap
      fun m => m.writes (answer m.label), w.target ∉ slot.2.ids := by
    intro w hw
    obtain ⟨other, memOther, hw⟩ := List.mem_flatMap.mp hw
    obtain ⟨m, hm, hw⟩ := List.mem_flatMap.mp hw
    have hapart := hv.slots_apart ht
    rw [heq] at hapart
    have hbehind := (List.pairwise_cons.mp (List.pairwise_append.mp hapart).2.1).1
    exact (hbehind other memOther).2 _ (target_of_match (hpick other m (Option.mem_toList.mp hm)) hw)
  cases hmatch : pick slot with
  | none =>
    rw [Option.toList_none, List.flatMap_nil, afterAll_nil]
    exact afterAll_of_not_mem hfree
  | some m =>
    rw [heq, List.filterMap_append, List.filterMap_cons, hmatch] at hheld
    have hm := hheld.held_eq
    obtain ⟨hlabel, hwalk, _⟩ := match?_eq_some (hpick slot m hmatch)
    rw [List.filterMap_eq_flatMap_toList, List.flatMap_assoc] at hm
    rw [Option.toList_some, List.flatMap_singleton,
      (hv.slot ht hmem).afterAll_match (hpick slot m hmatch) hlast,
      afterAll_setAt_assign hfree (walk_subset hwalk).2, Option.elim_some, ← hlabel, hm]

/-- In a tree the matches under some keys come to hold their own answers, and nothing else
changes. -/
theorem IsTree.afterAll_matchesUnder (keys : List Key) (hv : container.IsTree)
    (hrest : rest.getLast? ≠ some Path.wildcard)
    (hheld : Standing (fun m => m.writes (answer m.label)) (fun m => answer m.label)
      (fun m => held m.label)
      ((container.matchesBelow rest).filter fun m => keys.any fun j => j.same m.label)) :
    container.afterAll (((container.matchesBelow rest).filter fun m =>
        keys.any fun j => j.same m.label).flatMap fun m => m.writes (answer m.label)) =
      container.answeredUnder rest keys held := by
  by_cases ht : container.kind.isTraversable = true
  swap
  · have ht : container.kind.isTraversable = false := by simpa using ht
    have hw : ¬container.kind.isWritable = true := fun hw => by
      simp [isTraversable_of_isWritable hw] at ht
    unfold matchesBelow answeredUnder
    rcases rest.getLast? with _ | last
    · simp [hw]
    · simp [children_of_not_traversable ht, withSlots_of_not_traversable ht]
  cases container with
  | scalar s => simp [isTraversable_scalar] at ht
  | node id shape tag snapshot slots =>
    unfold matchesBelow at hheld ⊢
    unfold answeredUnder
    rcases List.eq_nil_or_concat' rest with rfl | ⟨suffix, last, rfl⟩
    · simp only [List.getLast?_nil, children_node ht] at hheld ⊢
      split
      · rename_i hw
        rw [if_pos hw, List.filter_map] at hheld
        rw [List.filter_map, hv.afterAll_own_matches hw List.filter_sublist hheld]
        refine Eq.trans ?_ (assign_filter keys)
        rw [Value.keys, children_node ht, List.filter_map]
        rfl
      · rfl
    · rw [List.getLast?_concat] at hrest
      have hlast : last ≠ Path.wildcard := fun heq => hrest (congrArg some heq)
      simp only [List.getLast?_concat, List.dropLast_concat, children_node ht] at hheld ⊢
      have hchosen : (slots.filterMap fun slot => slot.2.match? slot.1 suffix last).filter (fun m =>
          keys.any fun j => j.same m.label) = slots.filterMap fun slot =>
            (slot.2.match? slot.1 suffix last).filter fun _ => keys.any fun j => j.same slot.1 := by
        rw [← List.filterMap_eq_filter, List.filterMap_filterMap]
        refine List.filterMap_congr fun slot _ => ?_
        cases hm : slot.2.match? slot.1 suffix last with
        | none => rfl
        | some m =>
          rw [← (match?_eq_some hm).1]
          rfl
      rw [hchosen] at hheld ⊢
      exact hv.afterAll_branch_matches ht hlast
        (fun slot m hm => (Option.filter_eq_some_iff.mp hm).1) hheld

theorem pairwise_labels {done later : List Match} (hkeys : Slots.Distinct container.children)
    (hms : container.matchesBelow rest = done ++ later) :
    (done ++ later).Pairwise fun a b => a.label.same b.label = false :=
  hms ▸ pairwise_matchesBelow hkeys

theorem filter_matchesBelow {done later : List Match} (hkeys : Slots.Distinct container.children)
    (hms : container.matchesBelow rest = done ++ later) :
    (container.matchesBelow rest).filter (fun m =>
      (done.map Match.label).any fun j => j.same m.label) = done := by
  rw [hms, List.filter_append, List.filter_eq_self.mpr, List.filter_eq_nil_iff.mpr,
    List.append_nil]
  · intro b hb hany
    obtain ⟨j, hj, hsame⟩ := List.any_eq_true.mp hany
    obtain ⟨a, ha, rfl⟩ := List.mem_map.mp hj
    have hapart := (List.pairwise_append.mp (pairwise_labels hkeys hms)).2.2 a ha b hb
    rw [hsame] at hapart
    cases hapart
  · intro a ha
    exact List.any_eq_true.mpr ⟨a.label, List.mem_map_of_mem ha, Key.same_refl _⟩

/-- In a tree the first matches of a wildcard come to hold their own answers, and nothing else
changes. -/
theorem IsTree.afterAll_visited {root : Value} {before : List String} {done later : List Match}
    (hroot : root.IsTree) (hwalk : root.walk before = .ok (some container))
    (hrest : rest.getLast? ≠ some Path.wildcard)
    (hms : container.matchesBelow rest = done ++ later)
    (hheld : Standing (fun m => m.writes (answer m.label)) (fun m => answer m.label)
      (fun m => held m.label) done) :
    root.afterAll (done.flatMap fun m => m.writes (answer m.label)) =
      root.setAt (root.trail before)
        (container.answeredUnder rest (done.map Match.label) held) := by
  have hcontainer := hroot.walk hwalk
  have hfilter := filter_matchesBelow (distinct_children hcontainer.keyed) hms
  rw [← hfilter] at hheld
  have hunder := hcontainer.afterAll_matchesUnder (done.map Match.label) hrest hheld
  rw [hfilter] at hunder
  refine (hroot.afterAll_at (at?_trail hwalk) fun w mem => ?_).trans
    (congrArg (root.setAt (root.trail before)) hunder)
  obtain ⟨m, hm, hw⟩ := List.mem_flatMap.mp mem
  exact target_of_mem_matchesBelow (hms ▸ List.mem_append_left _ hm) hw

end

end Value

namespace Run

variable {censor : Censor} {path last : String} {suffix rest before : List String}

theorem replaceEach_eq (container : Value) (slots : List Slot) :
    replaceEach censor path container slots = answerEach censor path
      (slots.map fun slot => ⟨slot.1, slot.2, container, [slot.1]⟩) := by
  induction slots with
  | nil => rfl
  | cons slot rest ih =>
    obtain ⟨k, v⟩ := slot
    rw [replaceEach, List.map_cons, answerEach, ih]
    refine bind_congr fun x => ?_
    rw [Value.writes_singleton rfl]

theorem replaceBelow_eq {id : Ident} {shape : Shape} {tag snapshot : Option Value}
    {slots slots' : List Slot} {keys : List Key}
    (hv : (Value.node id shape tag snapshot slots).IsTree)
    (ht : shape.kind.isTraversable = true) (hshort : Path.HasShortNumerals (suffix ++ [last]))
    (hkeys : keys.Pairwise fun j k => j.same k = false)
    (hsame : ∀ k ∈ keys, Slots.get? k slots' = Slots.get? k slots)
    (hsome : ∀ k ∈ keys, (Slots.get? k slots).isSome = true) :
    replaceBelow censor path suffix last (.node id shape tag snapshot slots') keys =
      answerEach censor path (keys.filterMap fun k =>
        (Slots.get? k slots).bind fun branch => branch.match? k suffix last) := by
  induction keys generalizing slots' with
  | nil => rfl
  | cons key others ih =>
    obtain ⟨hfirst, hrest⟩ := List.pairwise_cons.mp hkeys
    have hlater := fun k mem => hsame k (List.mem_cons_of_mem _ mem)
    have hthere := fun k mem => hsome k (List.mem_cons_of_mem _ mem)
    obtain ⟨branch, hbranch⟩ := Option.isSome_iff_exists.mp (hsome key List.mem_cons_self)
    obtain ⟨j, hj, mem⟩ := Value.get?_mem hbranch
    rw [replaceBelow, Value.children_node ht, hsame key List.mem_cons_self, hbranch,
      List.filterMap_cons, hbranch, Option.bind_some]
    dsimp only
    rw [Value.affected?_eq_match? key hshort]
    cases hmatch : branch.match? key suffix last with
    | none => exact ih hrest hlater hthere
    | some m =>
      obtain rfl := (Value.match?_eq_some hmatch).1
      simp only [Option.map_some, ofExcept, pure_bind, Value.overwrite_match hmatch, answerEach]
      refine bind_congr fun x => ?_
      refine bind_congr fun _ => ?_
      have htarget : ∀ w ∈ m.writes x, w.target ∈ branch.reach := fun w hw =>
        Value.target_of_match hmatch hw
      rw [hv.afterAll_branch ht mem htarget]
      rw [ih hrest (fun k memKey => ?_) hthere]
      have hjk : j.same k = false := by
        by_contra hsame
        have := Key.same_trans (Key.same_comm j m.label ▸ hj) (Bool.not_eq_false _ ▸ hsame)
        simp [hfirst k memKey] at this
      rw [hv.get?_other_branch ht mem htarget hjk (hlater k memKey)]

/-- At a container of a tree, expanding a wildcard asks for an answer to each match. -/
theorem expandAt_eq_answerEach {container : Value} (hv : container.IsTree)
    (hshort : Path.HasShortNumerals rest) : Engine.expandAt censor path rest container =
      answerEach censor path (container.matchesBelow rest) := by
  by_cases ht : container.kind.isTraversable = true
  swap
  · have ht : container.kind.isTraversable = false := by simpa using ht
    have hnone : container.matchesBelow rest = [] := by
      rw [Value.matchesBelow, Value.children_of_not_traversable ht]
      rcases rest.getLast? with _ | last <;> simp
    rw [Engine.expandAt_of_not_traversable ht, hnone, answerEach]
  unfold Engine.expandAt Value.matchesBelow
  rcases List.eq_nil_or_concat' rest with rfl | ⟨suffix, last, rfl⟩
  · simp only [List.getLast?_nil]
    split
    · exact replaceEach_eq container container.children
    · rfl
  · cases container with
    | scalar s => simp [Value.isTraversable_scalar] at ht
    | node id shape tag snapshot slots =>
      have hdistinct : Slots.Distinct slots :=
        Value.keysDiffer_iff.mp ((Value.everywhere_node ht).mp hv.keyed).1
      have hget : ∀ slot ∈ slots, Slots.get? slot.1 slots = some slot.2 := fun slot mem =>
        Slots.get?_of_mem hdistinct mem (Key.same_refl _)
      simp only [List.getLast?_concat, List.dropLast_concat, Value.keys, Value.children_node ht]
      rw [replaceBelow_eq hv ht hshort (Slots.distinct_iff.mp hdistinct) (fun _ _ => rfl),
        List.filterMap_map]
      · congr 1
        refine List.filterMap_congr fun slot mem => ?_
        simp [hget slot mem]
      · simp only [List.forall_mem_map]
        exact fun slot mem => by simp [hget slot mem]

/-- In a tree, expanding a wildcard asks for an answer to each match, whatever the censor does. -/
theorem expand_eq_answerEach {s : Workspace} (hroot : s.root.IsTree)
    (hbefore : Path.wildcard ∉ before)
    (hshort : Path.HasShortNumerals (before ++ Path.wildcard :: rest)) :
    ∃ found, s.root.find? before = .ok found ∧
      expand censor path (before ++ Path.wildcard :: rest) s =
        answerEach censor path (found.elim [] (Value.matchesBelow rest)) s := by
  obtain ⟨found, hfound⟩ := s.root.find?_isOk (hshort.mono (List.subset_append_left before _))
  refine ⟨found, hfound, ?_⟩
  rw [Engine.expand_eq hbefore, hfound]
  rcases found with _ | container
  · rfl
  · have hrest : Path.HasShortNumerals rest := hshort.mono fun segment mem =>
      List.mem_append_right _ (List.mem_cons_of_mem _ mem)
    have hv := hroot.walk (Value.find?_eq_some.mp hfound).1
    exact congrFun (expandAt_eq_answerEach hv hrest) s

theorem replacement_function {f : CensorFunction} {v x : Value} {s : Workspace}
    (hx : f s.consultations ⟨v, path⟩ s.next = .ok x) :
    (Censor.function f).replacement v path s = .ok x { s with
      next := max s.next x.bound
      consultations := ⟨v, path⟩ :: s.consultations } := by
  simp only [Censor.replacement, bind, EStateM.bind, get, getThe, MonadStateOf.get, EStateM.get,
    set, EStateM.set, hx, ofExcept]
  rfl

theorem answerEach_append (censor : Censor) (path : String) (ms others : List Match) :
    answerEach censor path (ms ++ others) = do
      let count ← answerEach censor path ms
      let more ← answerEach censor path others
      return count + more := by
  induction ms with
  | nil => simp only [List.nil_append, answerEach, pure_bind, Nat.zero_add, bind_pure]
  | cons m rest ih =>
    simp only [List.cons_append, answerEach, ih, bind_assoc, pure_bind]
    simp only [Nat.add_right_comm]

/-- At a match whose key has no text the run ends before the censor is asked. -/
theorem answerEach_refuses {m : Match} {later : List Match} {s : Workspace}
    (h : Path.takes path m.label ≠ true) :
    answerEach censor path (m :: later) s = .error .longInteger s := by
  rw [answerEach]
  simp only [bind, EStateM.bind, Censor.replacementAt_of_not_takes h]

/-- What is asked about a row of matches is asked about those before the first key without text. -/
theorem answerEach_eq {ms : List Match} {s t : Workspace} {count : Nat}
    (h : answerEach censor path (ms.takeWhile fun m => Path.takes path m.label) s = .ok count t) :
    answerEach censor path ms s = if ms.all fun m => Path.takes path m.label then .ok count t
      else .error .longInteger t := by
  have hsplit : ms.takeWhile _ ++ ms.dropWhile _ = ms :=
    List.takeWhile_append_dropWhile (p := fun m : Match => Path.takes path m.label)
  cases hlater : ms.dropWhile fun m : Match => Path.takes path m.label with
  | nil =>
    have hall := List.dropWhile_eq_nil_iff.mp hlater
    rw [if_pos (List.all_eq_true.mpr hall)]
    rwa [List.takeWhile_eq_self_iff.mpr hall] at h
  | cons m others =>
    have hm : Path.takes path m.label ≠ true := by
      have hhead := List.head_dropWhile_not (fun m : Match => Path.takes path m.label)
        (ne_of_eq_of_ne hlater (List.cons_ne_nil m others))
      simp only [hlater, List.head_cons] at hhead
      simp [hhead]
    have hmem : m ∈ ms := hsplit ▸ List.mem_append_right _ (hlater ▸ List.mem_cons_self)
    rw [if_neg fun hall => hm (List.all_eq_true.mp hall m hmem), ← hsplit, hlater,
      answerEach_append]
    simp only [bind, EStateM.bind, h, answerEach_refuses hm]

/-- A censor function that answers a row of matches, each with the history it has by then, has them
all stored. -/
theorem answerEach_returns {f : CensorFunction} {start n : Ident} {ms : List Match}
    (hms : ms.Pairwise fun a b => a.label.same b.label = false)
    (hall : ∀ m ∈ ms, Path.takes path m.label = true) {s : Workspace}
    (hs : (Censor.function f).replay start s.consultations = .ok s.next)
    (hreturns : (Censor.function f).replay start
      ((ms.map (Match.question path)).reverse ++ s.consultations) = .ok n) :
    ∃ answer, f.Gives path answer s.consultations s.next ms ∧
      answerEach (.function f) path ms s = .ok ms.length
        { root := s.root.afterAll (ms.flatMap fun m => m.writes (answer m.label))
          next := n
          writes := (ms.flatMap fun m => m.writes (answer m.label)).reverse ++ s.writes
          consultations := (ms.map (Match.question path)).reverse ++ s.consultations } := by
  induction ms generalizing s with
  | nil =>
    obtain rfl : s.next = n := Except.ok.inj (hs.symm.trans hreturns)
    exact ⟨fun _ => .null, trivial, rfl⟩
  | cons m rest ih =>
    obtain ⟨hfirst, hrest⟩ := List.pairwise_cons.mp hms
    obtain ⟨htakes, hothers⟩ := List.forall_mem_cons.mp hall
    rw [List.map_cons, List.reverse_cons, List.append_assoc, List.singleton_append] at hreturns
    obtain ⟨x, hx, hnext⟩ := Censor.replay_cons_of_append hs hreturns
    obtain ⟨answer, hgives, hrun⟩ := ih hrest hothers
      (s := ⟨s.root.afterAll (m.writes x), max s.next x.bound, (m.writes x).reverse ++ s.writes,
        m.question path :: s.consultations⟩) hnext hreturns
    set answer' : Key → Value := fun k => if m.label.same k then x else answer k
    have hhead : answer' m.label = x := if_pos (Key.same_refl _)
    have hsame : ∀ b ∈ rest, answer b.label = answer' b.label := fun b mem =>
      (if_neg (by simp [hfirst b mem])).symm
    have hwrites : rest.flatMap (fun m => m.writes (answer m.label)) =
        rest.flatMap fun m => m.writes (answer' m.label) :=
      List.flatMap_congr fun b mem => by rw [hsame b mem]
    refine ⟨answer', ⟨hhead ▸ hx, hhead ▸ hgives.congr hsame⟩, ?_⟩
    rw [hwrites] at hrun
    have hstep : answerEach (.function f) path (m :: rest) s = (do
        let count ← answerEach (.function f) path rest
        return count + 1) ⟨s.root.afterAll (m.writes x), max s.next x.bound,
          (m.writes x).reverse ++ s.writes, m.question path :: s.consultations⟩ := by
      rw [answerEach, Censor.replacementAt_of_takes htakes]
      simp only [bind, EStateM.bind, replacement_function hx, performAll_eq]
      rfl
    rw [hstep, List.flatMap_cons, hhead]
    simp only [bind, EStateM.bind, hrun]
    simp [Value.afterAll_append, pure, EStateM.pure]

/-- On a tree the expansion of a wildcard visits each match once, up to the first one whose key has
no text. A censor function that returns is asked about these matches in the order of the children,
each time about what the slot held before the expansion began, under the path with the child's key
in place of the wildcard. Each of their slots comes to hold its own answer, and nothing else is
changed. Their number is returned if all were visited; otherwise the run has failed at the key. An
answer is held as it stands: it changes only where it has a container as a part that a later
match is stored in. -/
theorem expand_visits {f : CensorFunction} {root : Value} (hroot : root.IsTree)
    (hbefore : Path.wildcard ∉ before) (hrest : rest.getLast? ≠ some Path.wildcard)
    (hshort : Path.HasShortNumerals (before ++ Path.wildcard :: rest))
    (hf : ∀ asked question next, ∃ x, f asked question next = .ok x) (path : String)
    (next : Ident) : ∃ found ms visited answer held t,
      root.find? before = .ok found ∧ ms = found.elim [] (Value.matchesBelow rest) ∧
      visited = ms.takeWhile (fun m => Path.takes path m.label) ∧
      expand (.function f) path (before ++ Path.wildcard :: rest) (.start root next) =
        (if ms.all fun m => Path.takes path m.label then .ok visited.length t
          else .error .longInteger t) ∧
      t.consultations.reverse = visited.map (Match.question path) ∧
      f.Gives path answer [] next visited ∧
      t.writes.reverse = (visited.flatMap fun m => m.writes (answer m.label)) ∧
      t.root = (found.elim root fun container => root.setAt (root.trail before)
        (container.answeredUnder rest (visited.map Match.label) held)) ∧
      Standing (fun m => m.writes (answer m.label)) (fun m => answer m.label)
        (fun m => held m.label) visited ∧
      ((∀ a ∈ visited, ∀ b ∈ visited, ∀ w ∈ b.writes (answer b.label),
          w.target ∉ (answer a.label).ids) →
        ∀ m ∈ visited, held m.label = answer m.label) := by
  obtain ⟨found, hfound, hrun⟩ := @expand_eq_answerEach (.function f) path rest before
    (.start root next) hroot hbefore hshort
  set ms := found.elim [] (Value.matchesBelow rest) with hms
  have hlabels : ms.Pairwise fun a b => a.label.same b.label = false := by
    cases found with
    | none => exact .nil
    | some container =>
      exact Value.pairwise_matchesBelow (Value.distinct_children
        (hroot.walk (Value.find?_eq_some.mp hfound).1).keyed)
  set visited := ms.takeWhile fun m => Path.takes path m.label with hvisited
  have hvisitedTake : ∀ m ∈ visited, Path.takes path m.label = true := fun m mem =>
    List.mem_takeWhile_imp (p := fun m : Match => Path.takes path m.label) mem
  have hsplit : ms = visited ++ ms.dropWhile fun m => Path.takes path m.label :=
    List.takeWhile_append_dropWhile.symm
  have hpairwise := (List.pairwise_append.mp (hsplit ▸ hlabels)).1
  obtain ⟨n, hn⟩ := (Censor.function f).replay_isOk hf next
    (visited.map (Match.question path)).reverse
  obtain ⟨answer, hgives, heach⟩ := answerEach_returns (s := .start root next) hpairwise
    hvisitedTake rfl ((congrArg _ (List.append_nil _)).trans hn)
  obtain ⟨held, hheld⟩ := exists_standing Match.label hpairwise
    (fun m => m.writes (answer m.label)) fun m => answer m.label
  refine ⟨found, ms, visited, answer, held, _, hfound, rfl, rfl, hrun.trans (answerEach_eq heach),
    ?_, hgives, ?_,
    ?_, hheld, hheld.eq⟩
  · simp [Workspace.start]
  · simp [Workspace.start]
  · cases found with
    | none => rfl
    | some container =>
      exact hroot.afterAll_visited (Value.find?_eq_some.mp hfound).1 hrest hsplit hheld

end Run

namespace Sample

/-- A tuple of a mapping in a tuple, of a mapping in a mapping, and of nothing. -/
def drawers : Value := .dict 0 [(.text "rows", .node 1 (.tuple .plain) none none (indexed
  [.node 2 (.tuple .plain) none none (indexed [.dict 3 [(.text "k", .atom (.int 1))]]),
    .dict 4 [(.text "0", .dict 5 [(.text "k", .atom (.int 2)), (.text "j", .null)])], .null]))]

def enclose : CensorFunction := fun _ question next => .ok (.list next [question.value])

end Sample

/-- Two of three branches lead to a slot, one through a tuple and one through a text key. -/
theorem Run.expand_visits_drawers :
    Sample.drawers.IsTree ∧ Path.wildcard ∉ ["rows"] ∧
      ["0", "k"].getLast? ≠ some Path.wildcard ∧
      Path.HasShortNumerals (["rows"] ++ Path.wildcard :: ["0", "k"]) ∧
      (∀ asked question next, ∃ x, Sample.enclose asked question next = .ok x) ∧
      ∃ t, expand (.function Sample.enclose) "rows.*.0.k" (["rows"] ++ Path.wildcard :: ["0", "k"])
          (.start Sample.drawers 6) = .ok 2 t ∧
        t.consultations.reverse =
          [⟨.atom (.int 1), "rows.0.0.k"⟩, ⟨.atom (.int 2), "rows.1.0.k"⟩] := by
  have htree : Sample.drawers.IsTree := ⟨by decide, by decide, by decide⟩
  have hbefore : Path.wildcard ∉ ["rows"] := by decide
  have hrest : ["0", "k"].getLast? ≠ some Path.wildcard := by decide
  have hshort : Path.HasShortNumerals (["rows"] ++ Path.wildcard :: ["0", "k"]) := by decide
  have hreturns : ∀ asked question next, ∃ x, Sample.enclose asked question next = .ok x :=
    fun _ _ _ => ⟨_, rfl⟩
  obtain ⟨found, ms, visited, answer, held, t, hfound, rfl, rfl, hrun, hasked, _⟩ :=
    expand_visits htree hbefore hrest hshort hreturns "rows.*.0.k" 6
  have hrows : ∃ container, Sample.drawers.find? ["rows"] = .ok (some container) ∧
      (container.matchesBelow ["0", "k"]).all (fun m => Path.takes "rows.*.0.k" m.label) = true ∧
      (container.matchesBelow ["0", "k"]).map (Match.question "rows.*.0.k") =
        [⟨.atom (.int 1), "rows.0.0.k"⟩, ⟨.atom (.int 2), "rows.1.0.k"⟩] :=
    ⟨_, rfl, by cbv, by cbv⟩
  obtain ⟨container, hcontainer, hall, hquestions⟩ := hrows
  obtain rfl := Except.ok.inj (hfound.symm.trans hcontainer)
  have hcount := congrArg List.length hquestions
  rw [List.length_map] at hcount
  rw [Option.elim_some, List.takeWhile_eq_self_iff.mpr (List.all_eq_true.mp hall)] at hasked
  rw [Option.elim_some, if_pos hall, List.takeWhile_eq_self_iff.mpr (List.all_eq_true.mp hall),
    hcount] at hrun
  exact ⟨htree, hbefore, hrest, hshort, hreturns, t, hrun, hasked.trans hquestions⟩

end Redaction
