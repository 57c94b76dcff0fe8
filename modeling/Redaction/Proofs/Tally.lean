import Redaction.Proofs.Matches
import Redaction.Proofs.Orderliness

/-!
# What a wildcard counts

Expanding a wildcard returns the number of its matches. This is the number of slots that were
overwritten as long as each match has one slot. A match of a second wildcard at the end of the
segments has all slots of a container, of which there may be none or many, and it is counted once.

In a tree every slot has a spot of its own, and no two matches share one. So the overwritten slots
are counted by the slots of the matches.

Main statement: `Run.expand_counts`.
-/

namespace Redaction

/-- The spot of a slot: the identity of its container, and what makes its key the same as others. -/
abbrev Spot := Ident × List Token

/-- The spot of the slot that a write goes into. -/
def Write.spot (w : Write) : Spot := (w.target, w.key.tokens)

/-- The spots of the slots in which a match is stored. -/
def Match.spots (m : Match) : List Spot :=
  m.holder.ident?.toList.flatMap fun id => m.keys.map fun k => (id, k.tokens)

namespace Value

/-- The spots of all slots that paths lead to in a value. -/
def spots (v : Value) : List Spot :=
  v.within.flatMap fun u => u.ident?.toList.flatMap fun id => u.keys.map fun k => (id, k.tokens)

/-- The number of slots that paths lead to in a value and that some of the writes go into. -/
def overwritten (ws : List Write) (v : Value) : Nat :=
  v.spots.countP fun spot => (ws.map Write.spot).contains spot

section

variable {v u : Value} {id : Ident} {shape : Shape} {tag snapshot : Option Value}
  {slots : List Slot} {spot : Spot}

/-! ## Spots of a tree -/

theorem spots_of_not_traversable (h : v.kind.isTraversable = false) : v.spots = [] := by
  cases v with
  | scalar s => rfl
  | node id shape tag snapshot slots =>
    have ht : shape.kind.isTraversable = false := h
    have hkeys : (node id shape tag snapshot slots).keys = [] := by
      rw [keys, children_of_not_traversable h, List.map_nil]
    simp [spots, within, ht, hkeys]

theorem spots_node (ht : shape.kind.isTraversable = true) :
    (node id shape tag snapshot slots).spots =
      slots.map (fun slot => (id, slot.1.tokens)) ++ slots.flatMap fun slot => slot.2.spots := by
  have hkeys : (node id shape tag snapshot slots).keys = slots.map Prod.fst := by
    rw [keys, children_node ht]
  simp [spots, within, ht, hkeys, ident?, List.flatMap_assoc, Function.comp_def]

theorem fst_mem_reach (h : spot ∈ v.spots) : spot.1 ∈ v.reach := by
  obtain ⟨u, hu, h⟩ := List.mem_flatMap.mp h
  obtain ⟨id, hid, h⟩ := List.mem_flatMap.mp h
  obtain ⟨k, hk, rfl⟩ := List.mem_map.mp h
  obtain ⟨slot, mem, rfl⟩ := List.mem_map.mp hk
  obtain ⟨_, _, _, _, _, rfl, ht, _⟩ := exists_node mem
  exact reach_subset_of_mem_within hu (mem_reach_of_ident? ht (Option.mem_toList.mp hid))

theorem spots_subset (h : u ∈ v.within) : u.spots ⊆ v.spots := by
  intro spot mem
  obtain ⟨w, hw, mem⟩ := List.mem_flatMap.mp mem
  exact List.mem_flatMap.mpr ⟨w, within_subset h hw, mem⟩

theorem nodup_own_spots (h : Slots.Distinct slots) :
    (slots.map fun slot => (id, slot.1.tokens)).Nodup := by
  refine List.pairwise_map.mpr (h.imp fun {a b} hab heq => ?_)
  have htokens : a.1.tokens = b.1.tokens := (Prod.mk.inj heq).2
  simp [Key.same, htokens] at hab

theorem IsTree.nodup_spots (hv : v.IsTree) : v.spots.Nodup := by
  induction v using Value.induction with
  | scalar s => simp [spots_of_not_traversable (isTraversable_scalar s)]
  | node id shape tag snapshot slots _ _ ihSlots =>
    by_cases ht : shape.kind.isTraversable = true
    swap
    · rw [spots_of_not_traversable (by simpa [kind] using ht)]
      exact List.nodup_nil
    have hdistinct : Slots.Distinct slots := keysDiffer_iff.mp ((everywhere_node ht).mp hv.keyed).1
    rw [spots_node ht, List.nodup_append', List.nodup_flatMap]
    refine ⟨nodup_own_spots hdistinct, ⟨fun slot mem => ihSlots slot mem (hv.slot ht mem), ?_⟩,
      fun spot hown hbelow => ?_⟩
    -- slots below two children are in different containers, for these are apart
    · refine (hv.slots_apart ht).imp fun {a b} hapart spot ha hb => ?_
      exact hapart.1 _ (fst_mem_reach ha) (reach_subset_ids (fst_mem_reach hb))
    · obtain ⟨slot, _, rfl⟩ := List.mem_map.mp hown
      obtain ⟨other, mem, hspot⟩ := List.mem_flatMap.mp hbelow
      exact hv.ident_not_mem ht mem (reach_subset_ids (fst_mem_reach hspot))

/-- Writes into different slots of a tree overwrite as many slots as there are writes. -/
theorem IsTree.overwritten_eq (hv : v.IsTree) {ws : List Write} {hit : List Spot}
    (hws : ∀ spot, spot ∈ ws.map Write.spot ↔ spot ∈ hit) (hnodup : hit.Nodup)
    (hsub : hit ⊆ v.spots) : v.overwritten ws = hit.length := by
  have hperm : (v.spots.filter fun spot => (ws.map Write.spot).contains spot).Perm hit := by
    refine (List.perm_ext_iff_of_nodup (hv.nodup_spots.filter _) hnodup).mpr fun spot => ?_
    rw [List.mem_filter, List.contains_iff_mem, hws]
    exact ⟨fun h => h.2, fun h => ⟨hsub h, h⟩⟩
  rw [overwritten, List.countP_eq_length_filter, hperm.length_eq]

end

/-! ## Spots of matches -/

section

variable {container branch : Value} {rest suffix : List String} {last : String} {label k : Key}
  {m : Match} {id : Ident} {shape : Shape} {tag snapshot : Option Value} {slots : List Slot}

theorem own_spot_mem (ht : shape.kind.isTraversable = true)
    (hk : (Slots.get? k slots).isSome = true) :
    (id, k.tokens) ∈ (node id shape tag snapshot slots).spots := by
  obtain ⟨u, hu⟩ := Option.isSome_iff_exists.mp hk
  obtain ⟨j, hj, mem⟩ := get?_mem hu
  have htokens : j.tokens = k.tokens := by simpa [Key.same] using hj
  rw [spots_node ht]
  exact List.mem_append_left _ (List.mem_map.mpr ⟨(j, u), mem, by rw [htokens]⟩)

theorem IsTree.spots_match (hv : branch.IsTree)
    (h : branch.match? label suffix last = some m) : m.spots.Nodup ∧ m.spots ⊆ branch.spots := by
  obtain ⟨_, hwalk, hw, hkeys⟩ := match?_eq_some h
  have hholder := hv.walk hwalk
  obtain ⟨id, shape, tag, snapshot, slots, hnode, hshape⟩ := exists_node_of_isWritable hw
  have ht := isTraversable_of_isWritable hshape
  rw [hnode] at hkeys hholder
  have hspots : m.spots = m.keys.map fun k => (id, k.tokens) := by
    rw [Match.spots, hnode]
    exact List.flatMap_singleton _ _
  have hsubset : (node id shape tag snapshot slots).spots ⊆ branch.spots :=
    spots_subset (hnode ▸ walk_mem_within hwalk)
  rw [hspots]
  -- a match has all slots of its container, or the one that the last segment names
  rcases hkeys with ⟨_, hkeys⟩ | ⟨_, found, hslot, hkeys⟩
  · have hown : (m.keys.map fun k => (id, k.tokens)) =
        slots.map fun slot => (id, slot.1.tokens) := by
      rw [hkeys, Value.keys, children_node ht, List.map_map]
      rfl
    rw [hown]
    refine ⟨nodup_own_spots (keysDiffer_iff.mp ((everywhere_node ht).mp hholder.keyed).1), ?_⟩
    refine List.Subset.trans ?_ hsubset
    rw [spots_node ht]
    exact List.subset_append_left _ _
  · have hget := (slot?_eq_some.mp hslot).1
    rw [children_node ht] at hget
    have hown : (id, found.tokens) ∈ branch.spots := hsubset (own_spot_mem ht (by simp [hget]))
    rw [hkeys]
    exact ⟨List.nodup_singleton _, List.cons_subset.mpr ⟨hown, List.nil_subset _⟩⟩

theorem IsTree.spots_matchesBelow (hv : container.IsTree) (rest : List String) :
    ((container.matchesBelow rest).flatMap Match.spots).Nodup ∧
      (container.matchesBelow rest).flatMap Match.spots ⊆ container.spots := by
  by_cases ht : container.kind.isTraversable = true
  swap
  · have hnone : container.matchesBelow rest = [] := by
      rw [matchesBelow, children_of_not_traversable (by simpa using ht)]
      rcases rest.getLast? with _ | last <;> simp
    simp [hnone]
  obtain ⟨id, shape, tag, snapshot, slots, rfl⟩ :
      ∃ id shape tag snapshot slots, container = node id shape tag snapshot slots := by
    cases container with
    | scalar s => simp [isTraversable_scalar] at ht
    | node id shape tag snapshot slots => exact ⟨id, shape, tag, snapshot, slots, rfl⟩
  have ht : shape.kind.isTraversable = true := ht
  unfold matchesBelow
  rw [children_node ht]
  split
  -- with no segment left the matches are the slots of the container itself
  · split
    swap
    · simp
    have hown : (slots.map fun slot =>
        (⟨slot.1, slot.2, node id shape tag snapshot slots, [slot.1]⟩ : Match)).flatMap
          Match.spots = slots.map fun slot => (id, slot.1.tokens) := by
      rw [List.flatMap_map]
      exact List.map_eq_flatMap.symm
    rw [hown, spots_node ht]
    exact ⟨nodup_own_spots (keysDiffer_iff.mp ((everywhere_node ht).mp hv.keyed).1),
      List.subset_append_left _ _⟩
  -- with segments left each match is in a branch of its own, and branches are apart
  · rename_i last hlast
    have hbranch : ∀ slot ∈ slots, ∀ m, slot.2.match? slot.1 rest.dropLast last = some m →
        m.spots.Nodup ∧ m.spots ⊆ slot.2.spots := fun slot mem m hm =>
      (hv.slot ht mem).spots_match hm
    refine ⟨List.nodup_flatMap.mpr ⟨fun m hm => ?_, ?_⟩, fun spot mem => ?_⟩
    · obtain ⟨slot, mem, hm⟩ := List.mem_filterMap.mp hm
      exact (hbranch slot mem m hm).1
    · have hapart := (hv.slots_apart ht).imp_of_mem (S := fun a b => ∀ m,
        a.2.match? a.1 rest.dropLast last = some m → ∀ m',
          b.2.match? b.1 rest.dropLast last = some m' → List.Disjoint m.spots m'.spots) ?_
      · exact List.Pairwise.filterMap _ (fun a b hab m hm m' hm' => hab m hm m' hm') hapart
      · intro a b ha hb hab m hm m' hm' spot hspot hspot'
        have hin := fst_mem_reach ((hbranch a ha m hm).2 hspot)
        have hin' := fst_mem_reach ((hbranch b hb m' hm').2 hspot')
        exact hab.1 _ hin (reach_subset_ids hin')
    · obtain ⟨m, hm, hspot⟩ := List.mem_flatMap.mp mem
      obtain ⟨slot, memSlot, hm⟩ := List.mem_filterMap.mp hm
      rw [spots_node ht]
      refine List.mem_append_right _ (List.mem_flatMap.mpr ⟨slot, memSlot, ?_⟩)
      exact (hbranch slot memSlot m hm).2 hspot

theorem IsTree.spots_matchesFound {root : Value} {found : Option Value} {before : List String}
    (hroot : root.IsTree) (hfound : root.find? before = .ok found) (rest : List String) :
    ((found.elim [] (matchesBelow rest)).flatMap Match.spots).Nodup ∧
      (found.elim [] (matchesBelow rest)).flatMap Match.spots ⊆ root.spots := by
  cases found with
  | none => simp
  | some container =>
    have hwalk := (find?_eq_some.mp hfound).1
    have hbelow := (hroot.walk hwalk).spots_matchesBelow rest
    exact ⟨hbelow.1, List.Subset.trans hbelow.2 (spots_subset (walk_mem_within hwalk))⟩

theorem isWritable_of_mem_matchesBelow (h : m ∈ container.matchesBelow rest) :
    m.holder.kind.isWritable = true := by
  unfold matchesBelow at h
  split at h
  · split at h
    · rename_i hw
      obtain ⟨slot, _, rfl⟩ := List.mem_map.mp h
      exact hw
    · cases h
  · obtain ⟨slot, _, hm⟩ := List.mem_filterMap.mp h
    exact (match?_eq_some hm).2.2.1

/-- A match of a wildcard at the end fills a container; any other match is one slot. -/
theorem keys_of_mem_matchesBelow (h : m ∈ container.matchesBelow rest) :
    if rest.getLast? = some Path.wildcard then m.keys = m.holder.keys else m.keys.length = 1 := by
  unfold matchesBelow at h
  split at h
  · rename_i hlast
    split at h
    · obtain ⟨slot, _, rfl⟩ := List.mem_map.mp h
      simp [hlast]
    · cases h
  · rename_i last hlast
    obtain ⟨slot, _, hm⟩ := List.mem_filterMap.mp h
    obtain ⟨_, _, _, ⟨rfl, hkeys⟩ | ⟨hne, found, _, hkeys⟩⟩ := match?_eq_some hm
    · rw [if_pos hlast, hkeys]
    · rw [hlast, if_neg (by simpa using hne), hkeys]
      rfl

/-- Slots that are written once for each of some matches are as many as the matches have. -/
theorem IsTree.overwritten_matches {v : Value} (hv : v.IsTree) {ms : List Match} {ws : List Write}
    (hms : ∀ m ∈ ms, m.holder.kind.isWritable = true)
    (hnodup : (ms.flatMap Match.spots).Nodup) (hsub : ms.flatMap Match.spots ⊆ v.spots)
    (hws : ws.map Write.spot = ms.flatMap Match.spots) :
    v.overwritten ws.reverse = (ms.map fun m => m.keys.length).sum := by
  have hlengths : ∀ m ∈ ms, m.spots.length = m.keys.length := fun m mem => by
    obtain ⟨id, hid, _⟩ := Match.writes_of_writable (hms m mem) .null
    simp [Match.spots, hid]
  have hhit : ∀ spot, spot ∈ ws.reverse.map Write.spot ↔ spot ∈ ms.flatMap Match.spots := by
    intro spot
    rw [List.map_reverse, List.mem_reverse, hws]
  rw [hv.overwritten_eq hhit hnodup hsub, List.length_flatMap]
  exact congrArg List.sum (List.map_congr_left hlengths)

end

end Value

namespace Run

open Value

variable {censor : Censor} {path : String} {root : Value} {before rest : List String}

/-! ## The count -/

theorem replacement_returns
    (hcensor : ∀ earlier question next, ∃ x, censor.answer earlier question next = .ok x)
    (v : Value) (path : String) (s : Workspace) : ∃ x t, censor.replacement v path s = .ok x t ∧
      t.root = s.root ∧ t.writes = s.writes := by
  obtain ⟨x, hx⟩ := hcensor s.consultations ⟨v, path⟩ s.next
  cases censor with
  | literal y => exact ⟨y, s, rfl, rfl, rfl⟩
  | function f => exact ⟨x, _, replacement_function hx, rfl, rfl⟩

theorem spot_of_mem_writes {m : Match} (hw : m.holder.kind.isWritable = true) (x : Value) :
    (m.writes x).map Write.spot = m.spots := by
  obtain ⟨id, hid, hwrites⟩ := Match.writes_of_writable hw x
  rw [hwrites, Match.spots, hid, List.map_map]
  exact (List.flatMap_singleton _ _).symm

theorem answerEach_tallies
    (hcensor : ∀ earlier question next, ∃ x, censor.answer earlier question next = .ok x)
    {ms : List Match} (hms : ∀ m ∈ ms, m.holder.kind.isWritable = true)
    (hall : ∀ m ∈ ms, Path.takes path m.label = true) (s : Workspace) :
    ∃ ws t, answerEach censor path ms s = .ok ms.length t ∧ t.root = s.root.afterAll ws ∧
      t.writes = ws.reverse ++ s.writes ∧ ws.map Write.spot = ms.flatMap Match.spots := by
  induction ms generalizing s with
  | nil => exact ⟨[], s, rfl, rfl, rfl, rfl⟩
  | cons m rest ih =>
    obtain ⟨hw, hrest⟩ := List.forall_mem_cons.mp hms
    obtain ⟨htakes, hothers⟩ := List.forall_mem_cons.mp hall
    obtain ⟨x, u, hask, hroot, hwrites⟩ :=
      replacement_returns hcensor m.value (Path.instantiate path m.label.wording) s
    obtain ⟨ws, t, hrun, hroot', hwrites', hspots⟩ := ih hrest hothers (written (m.writes x) u)
    refine ⟨m.writes x ++ ws, t, ?_, ?_, ?_, ?_⟩
    · rw [answerEach, Censor.replacementAt_of_takes htakes]
      simp only [bind, EStateM.bind, hask, performAll_eq]
      simp only [written] at hrun
      simp [hrun, pure, EStateM.pure]
    · rw [hroot', Value.afterAll_append, ← hroot]
      rfl
    · rw [hwrites', ← hwrites, List.reverse_append, List.append_assoc]
      rfl
    · rw [List.map_append, hspots, spot_of_mem_writes hw, List.flatMap_cons]

/-- On a tree the expansion of a wildcard, with a censor that always answers, stores the answers to
its matches, up to the first one whose key has no text. It returns their number if these are all.
The slots that it overwrites are those of the matches. So their number is returned, unless the last
segment is a second wildcard: a match then fills a container, which counts as one, whether it has no
slot or several. -/
theorem expand_counts (hroot : root.IsTree) (hbefore : Path.wildcard ∉ before)
    (hshort : Path.HasShortNumerals (before ++ Path.wildcard :: rest))
    (hcensor : ∀ earlier question next, ∃ x, censor.answer earlier question next = .ok x)
    (path : String) (next : Ident) : ∃ found ms visited t,
      root.find? before = .ok found ∧ ms = found.elim [] (Value.matchesBelow rest) ∧
      visited = ms.takeWhile (fun m => Path.takes path m.label) ∧
      expand censor path (before ++ Path.wildcard :: rest) (.start root next) =
        (if ms.all fun m => Path.takes path m.label then .ok visited.length t
          else .error .longInteger t) ∧
      t.root = root.afterAll t.writes.reverse ∧
      root.overwritten t.writes = (visited.map fun m => m.keys.length).sum ∧
      (rest.getLast? ≠ some Path.wildcard → root.overwritten t.writes = visited.length) ∧
      (rest.getLast? = some Path.wildcard → ∀ m ∈ visited, m.keys = m.holder.keys) := by
  obtain ⟨found, hfound, hexpand⟩ := @expand_eq_answerEach censor path rest before
    (.start root next) hroot hbefore hshort
  have hfound : root.find? before = .ok found := hfound
  set ms := found.elim [] (Value.matchesBelow rest) with hms
  set visited := ms.takeWhile fun m => Path.takes path m.label with hvisited
  obtain ⟨later, hsplit⟩ : visited <+: ms := List.takeWhile_prefix _
  have hmatches : ∀ m ∈ visited, ∃ container ∈ found, m ∈ container.matchesBelow rest := by
    intro m mem
    have mem : m ∈ ms := hsplit ▸ List.mem_append_left later mem
    cases found with
    | none => simp [hms] at mem
    | some container => exact ⟨container, rfl, mem⟩
  have hspots : (visited.flatMap Match.spots).Nodup ∧ visited.flatMap Match.spots ⊆ root.spots := by
    have hall := hroot.spots_matchesFound hfound rest
    rw [← hms, ← hsplit, List.flatMap_append] at hall
    exact ⟨hall.1.of_append_left, (List.append_subset.mp hall.2).1⟩
  have hkeys : ∀ m ∈ visited, if rest.getLast? = some Path.wildcard then m.keys = m.holder.keys
      else m.keys.length = 1 := fun m mem => by
    obtain ⟨container, _, hm⟩ := hmatches m mem
    exact keys_of_mem_matchesBelow hm
  have hwritable : ∀ m ∈ visited, m.holder.kind.isWritable = true := fun m mem => by
    obtain ⟨container, _, hm⟩ := hmatches m mem
    exact isWritable_of_mem_matchesBelow hm
  have htaken : ∀ m ∈ visited, Path.takes path m.label = true := fun m mem =>
    List.mem_takeWhile_imp (p := fun m : Match => Path.takes path m.label) mem
  obtain ⟨ws, t, hrun, hroot', hwrites, hhit⟩ :=
    @answerEach_tallies censor path hcensor visited hwritable htaken (.start root next)
  have hmade : t.writes = ws.reverse := by
    rw [hwrites]
    exact List.append_nil _
  have htally := hroot.overwritten_matches hwritable hspots.1 hspots.2 hhit
  rw [← hmade] at htally
  refine ⟨found, ms, visited, t, hfound, rfl, rfl, hexpand.trans (answerEach_eq hrun), ?_, htally,
    fun hrest => ?_, fun hrest m mem => ?_⟩
  · rw [hroot', hmade, List.reverse_reverse]
    rfl
  · rw [htally, List.map_congr_left fun m mem => (if_neg hrest).mp (hkeys m mem)]
    simp
  · have hfilled := hkeys m mem
    rwa [if_pos hrest] at hfilled

end Run

namespace Sample

def emptyTray : Value := .dict 0 [(.text "a", .dict 1 [])]

def fullTray : Value := .dict 0 [(.text "a", .dict 1 [(.text "x", .null), (.text "y", .null)])]

end Sample

theorem Run.expand_counts_emptyTray :
    Sample.emptyTray.IsTree ∧ Path.wildcard ∉ ([] : List String) ∧
      Path.HasShortNumerals ([] ++ Path.wildcard :: [Path.wildcard]) ∧
      (∀ earlier question next, ∃ x,
        (Censor.literal (.text "X")).answer earlier question next = .ok x) ∧
      ∃ t, expand (.literal (.text "X")) "*.*" ([] ++ Path.wildcard :: [Path.wildcard])
          (.start Sample.emptyTray 2) = .ok 1 t ∧
        t.root = Sample.emptyTray.afterAll t.writes.reverse ∧
        Sample.emptyTray.overwritten t.writes = 0 := by
  have htree : Sample.emptyTray.IsTree := ⟨by decide, by decide, by decide⟩
  have hbefore : Path.wildcard ∉ ([] : List String) := by decide
  have hshort : Path.HasShortNumerals ([] ++ Path.wildcard :: [Path.wildcard]) := by decide
  have hanswers : ∀ earlier question next, ∃ x,
      (Censor.literal (.text "X")).answer earlier question next = .ok x := fun _ _ _ => ⟨_, rfl⟩
  obtain ⟨found, ms, visited, t, hfound, hms, rfl, hrun, hroot, htally, _, _⟩ :=
    expand_counts htree hbefore hshort hanswers "*.*" 2
  obtain rfl : some Sample.emptyTray = found := Except.ok.inj hfound
  have hone : Sample.emptyTray.matchesBelow [Path.wildcard] =
      [⟨.text "a", .dict 1 [], .dict 1 [], []⟩] := by cbv
  obtain rfl : ms = [⟨.text "a", .dict 1 [], .dict 1 [], []⟩] := hms.trans hone
  exact ⟨htree, hbefore, hshort, hanswers, t, hrun, hroot, htally⟩

/-- Filling two slots is counted as one place. -/
example : (match Run.expand (.literal (.text "X")) "*.*" [Path.wildcard, Path.wildcard]
    (.start Sample.fullTray 2) with
    | .ok count t => (count, Sample.fullTray.overwritten t.writes)
    | .error _ _ => (0, 0)) = (1, 2) := by
  decide

end Redaction
