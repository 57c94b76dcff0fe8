import Redaction.Session
import Redaction.Proofs.TreeWrites

/-!
# Overwriting as a lens

Finding and overwriting follow the same segments with different checks on the way. On trees they
agree: what is overwritten is the slot that is found, or for a last wildcard every slot of the
container found before it, and all else is left as it was.

Main statement: `World.overwriting_assigns`.
-/

namespace Redaction

theorem Path.index?_eq {segment : String} (hshort : HasShortNumerals [segment]) :
    index? segment = .ok (Text.ofNumeral? segment.toList) := by
  have hlength : (Text.isNumeral segment.toList &&
      decide (numeralLimit < segment.toList.length)) = false := by
    simpa using hshort segment List.mem_cons_self
  rw [index?, hlength]
  rfl

namespace Value

/-- The segment names the slot of the key: it is the key as a text, or else, when no key is that
text, the number that it denotes is the key. -/
def Names (v : Value) (segment : String) (k : Key) : Prop :=
  k ∈ v.keys ∧ (k.same (.text segment) = true ∨
    (∀ j ∈ v.keys, j.same (.text segment) = false) ∧
      ∃ i, Text.ofNumeral? segment.toList = some i ∧ k.same (.index i) = true)

/-- A last segment stands for the slots of these keys: a wildcard for all of them, any other segment
for the one that it names. -/
def StandsFor (v : Value) (last : String) (keys : List Key) : Prop :=
  if last = Path.wildcard then keys = v.keys else ∃ k, v.Names last k ∧ keys = [k]

section

variable {v h x : Value} {segment last : String} {k found : Key} {child : Value}

theorem names_of_slot? (hshort : Path.HasShortNumerals [segment])
    (hslot : v.slot? segment = .ok (some (found, child))) :
    ∃ k, v.Names segment k ∧ k.same found = true := by
  obtain ⟨hget, hname⟩ := slot?_eq_some.mp hslot
  obtain ⟨k, hk, mem⟩ := get?_mem hget
  refine ⟨k, ⟨List.mem_map.mpr ⟨_, mem, rfl⟩, ?_⟩, hk⟩
  rcases hname with rfl | ⟨hnone, i, hindex, rfl⟩
  · exact .inl hk
  · rw [Path.index?_eq hshort, Except.ok.injEq] at hindex
    refine .inr ⟨fun j memKey => ?_, i, hindex, hk⟩
    obtain ⟨slot, memSlot, rfl⟩ := List.mem_map.mp memKey
    exact Slots.get?_eq_none.mp hnone slot memSlot

theorem Names.slot? (hshort : Path.HasShortNumerals [segment])
    (hkeys : Slots.Distinct v.children) (hk : v.Names segment k) :
    ∃ found child, v.slot? segment = .ok (some (found, child)) := by
  obtain ⟨hmem, hname⟩ := hk
  obtain ⟨⟨name, child⟩, mem, rfl⟩ := List.mem_map.mp hmem
  rcases hname with htext | ⟨hnone, i, hindex, hi⟩
  · exact ⟨_, child, slot?_eq_some.mpr ⟨Slots.get?_of_mem hkeys mem htext, .inl rfl⟩⟩
  · refine ⟨_, child, slot?_eq_some.mpr ⟨Slots.get?_of_mem hkeys mem hi, .inr ⟨?_, i, ?_, rfl⟩⟩⟩
    · exact Slots.get?_eq_none.mpr fun slot memSlot =>
        hnone slot.1 (List.mem_map.mpr ⟨slot, memSlot, rfl⟩)
    · rw [Path.index?_eq hshort, hindex]

structure Assigns (h x : Value) (last : String) (ws : List Write) (keys : List Key)
    (held : Key → Value) : Prop where
  chosen : h.StandsFor last keys
  targets : ∀ w ∈ ws, w.target ∈ h.reach
  assigned : h.afterAll ws = h.assign keys held
  standing : Standing (fun k => (h.writeTo k x).toList) (fun _ => x) held keys
  found : last ≠ Path.wildcard → x.isRemove = false →
    (h.assign keys held).walk [last] = .ok (some x)

theorem StandsFor.subset {keys : List Key} (hkeys : h.StandsFor last keys) : keys ⊆ h.keys := by
  unfold StandsFor at hkeys
  split at hkeys
  · exact hkeys ▸ List.Subset.refl _
  · obtain ⟨k, hk, rfl⟩ := hkeys
    simpa using hk.1

namespace Assigns

variable {ws : List Write} {keys : List Key} {held : Key → Value}

theorem keys_eq (ha : h.Assigns x last ws keys held) (hv : h.IsTree) :
    (h.assign keys held).keys = h.keys.filter fun k =>
      !(keys.any fun j => j.same k) || (settled h.kind x).isSome := by
  rw [keys_assign]
  refine List.filter_congr fun k mem => ?_
  by_cases hany : (keys.any fun j => j.same k) = true
  · obtain ⟨j, hj, hsame⟩ := List.any_eq_true.mp hany
    obtain ⟨a, ha', rfl⟩ := List.mem_map.mp (ha.chosen.subset hj)
    obtain ⟨b, hb, rfl⟩ := List.mem_map.mp mem
    obtain rfl := Slots.eq_of_same (distinct_children hv.keyed) ha' hb hsame
    obtain ⟨us, hus⟩ := ha.standing.exists_afterAll hj
    rw [hus, settled_afterAll_isSome]
  · simp [hany]

theorem held_eq (ha : h.Assigns x last ws keys held) (hfree : ∀ id ∈ h.ident?, id ∉ x.ids) :
    ∀ k ∈ keys, held k = x := by
  refine ha.standing.eq fun _ _ k _ w hw => ?_
  exact hfree _ (ident?_of_writeTo (Option.mem_toList.mp hw)).1

end Assigns

theorem IsTree.assigns_named (hv : h.IsTree) (hwritable : h.kind.isWritable = true)
    (hshort : Path.HasShortNumerals [last]) (hlast : last ≠ Path.wildcard)
    (hslot : h.slot? last = .ok (some (found, child))) (x : Value) :
    ∃ k, h.Assigns x last (h.writeTo found x).toList [k] fun _ => x := by
  obtain ⟨k, hname, hk⟩ := names_of_slot? hshort hslot
  obtain ⟨id, shape, tag, snapshot, slots, rfl, hw⟩ := exists_node_of_isWritable hwritable
  have hwrite : (node id shape tag snapshot slots).writeTo found x =
      some ⟨id, found, settled shape.kind x⟩ := writeTo_node hw found x
  refine ⟨k, ?_, ?_, ?_, ⟨rfl, trivial⟩, fun _ hx => ?_⟩
  · rw [StandsFor, if_neg hlast]
    exact ⟨k, hname, rfl⟩
  · exact fun w mem => (ident?_of_writeTo (Option.mem_toList.mp mem)).2
  · rw [hwrite, Option.toList_some, afterAll_cons, afterAll_nil]
    exact (hv.after_writeTo (slot?_eq_some.mp hslot).1 hwrite).trans
      (assign_congr (Key.same_comm k found ▸ hk))
  · rw [assign_singleton hx, Value.walk, slot?_putAt (distinct_children hv.keyed) hslot hk]
    rfl

theorem IsTree.assigns_all (hv : h.IsTree) (hwritable : h.kind.isWritable = true) (x : Value) :
    ∃ held, h.Assigns x Path.wildcard (h.keys.filterMap fun k => h.writeTo k x) h.keys held := by
  obtain ⟨id, shape, tag, snapshot, slots, rfl, hw⟩ := exists_node_of_isWritable hwritable
  have ht := isTraversable_of_isWritable hw
  have hdistinct : Slots.Distinct slots := keysDiffer_iff.mp ((everywhere_node ht).mp hv.keyed).1
  have hkeys : (node id shape tag snapshot slots).keys = slots.map Prod.fst := by
    rw [keys, children_node ht]
  obtain ⟨held, hheld⟩ := exists_standing (fun k => k) (Slots.distinct_iff.mp hdistinct)
    (fun k => [⟨id, k, settled shape.kind x⟩]) fun _ => x
  refine ⟨held, ?_, ?_, ?_, ?_, fun hne => absurd rfl hne⟩
  · rw [StandsFor, if_pos rfl]
  · intro w mem
    obtain ⟨k, _, hk⟩ := List.mem_filterMap.mp mem
    exact (ident?_of_writeTo hk).2
  · simp only [hkeys, writeTo_node hw, List.filterMap_eq_map', List.map_map]
    exact hv.afterAll_own ht hheld
  · simp only [hkeys, writeTo_node hw, Option.toList_some]
    exact hheld

/-- What overwriting does to a container that is the root of a tree: nothing where nothing can be
written, and otherwise it assigns the slots that the segment stands for. -/
theorem IsTree.writesAt_cases (hv : h.IsTree) (hshort : Path.HasShortNumerals [last]) (x : Value) :
    h.writesAt last x = .ok none ∧
        ¬(h.kind.isWritable = true ∧ ∃ keys, h.StandsFor last keys) ∨
      ∃ ws keys held, h.writesAt last x = .ok (some ws) ∧ h.kind.isWritable = true ∧
        h.Assigns x last ws keys held := by
  by_cases hw : h.kind.isWritable = true
  swap
  · exact .inl ⟨by simp [writesAt, hw], fun hwritable => hw hwritable.1⟩
  by_cases hlast : last = Path.wildcard
  · subst hlast
    obtain ⟨held, hassigns⟩ := hv.assigns_all hw x
    exact .inr ⟨_, _, held, by simp [writesAt, hw], hw, hassigns⟩
  obtain ⟨slot, hslot⟩ := h.slot?_isOk (Path.index?_isOk (hshort last List.mem_cons_self))
  cases slot with
  | none =>
    refine .inl ⟨by simp [writesAt, hw, hlast, hslot, Except.map], fun hnamed => ?_⟩
    obtain ⟨_, keys, hkeys⟩ := hnamed
    rw [StandsFor, if_neg hlast] at hkeys
    obtain ⟨k, hk, _⟩ := hkeys
    obtain ⟨found, child, hfound⟩ := hk.slot? hshort (distinct_children hv.keyed)
    rw [hfound] at hslot
    cases hslot
  | some slot =>
    obtain ⟨found, child⟩ := slot
    obtain ⟨k, hassigns⟩ := hv.assigns_named hw hshort hlast hslot x
    exact .inr ⟨_, _, _, by simp [writesAt, hw, hlast, hslot, Except.map], hw, hassigns⟩

end

end Value

namespace World

open Value

variable {root x : Value} {before : List String} {last : String}

theorem overwriting_eq {segments : List String} {s : Workspace} {writes : Option (List Write)}
    (h : s.root.overwrite segments x = .ok writes) : overwriting segments x s =
      .ok writes.isSome (Run.written (writes.getD []) s) := by
  have hroot : Run.root s = .ok s.root s := rfl
  unfold overwriting
  simp only [bind, EStateM.bind, hroot, h, Run.ofExcept]
  cases writes with
  | none => rfl
  | some ws =>
    exact Run.performAll_then ws (fun _ => pure true) s

/-- Finding and overwriting form a lens on trees. Overwriting writes if and only if the segments but
the last one find a container that can be written, and the last one is a wildcard or names one of
its slots. If it does not write, the value stays as it was. If it does, then the container is
changed where it stands and nothing else is: the slots which the last segment stands for are
assigned, all keys are kept but those of deleted slots, and none is added. An assigned slot holds
`x` itself, which is then found by the same segments. When several slots are assigned, and `x` has
their container as a part, they hold `x` as it stands after the later ones were assigned. -/
theorem overwriting_assigns (hroot : root.IsTree)
    (hshort : Path.HasShortNumerals (before ++ [last])) (x : Value) (next : Ident) :
    ∃ found wrote s, root.find? before = .ok found ∧
      overwriting (before ++ [last]) x (.start root next) = .ok wrote s ∧
      (wrote = true ↔ ∃ h ∈ found, h.kind.isWritable = true ∧ ∃ keys, h.StandsFor last keys) ∧
      (wrote = false → s.root = root) ∧
      (wrote = true → ∀ h ∈ found, ∃ keys held, h.StandsFor last keys ∧
        root.at? (root.trail before) = some h ∧
        s.root = root.setAt (root.trail before) (h.assign keys held) ∧
        (h.assign keys held).keys = h.keys.filter (fun k =>
          !(keys.any fun j => j.same k) || (settled h.kind x).isSome) ∧
        Standing (fun k => (h.writeTo k x).toList) (fun _ => x) held keys ∧
        ((∀ id ∈ h.ident?, id ∉ x.ids) → ∀ k ∈ keys, held k = x) ∧
        (last ≠ Path.wildcard → x.isRemove = false →
          s.root.find? (before ++ [last]) = .ok ((some x).filter fun y => !y.isMissing))) := by
  have hbefore := hshort.mono (List.subset_append_left before [last])
  have hshortLast := hshort.mono (List.subset_append_right before [last])
  obtain ⟨walked, hwalk⟩ := root.walk_isOk fun segment mem =>
    Path.index?_isOk (hbefore segment mem)
  have hover : root.overwrite (before ++ [last]) x =
      walked.elim (.ok none) fun h => h.writesAt last x := by
    rw [overwrite, List.getLast?_concat, List.dropLast_concat, hwalk]
    cases walked <;> rfl
  have hfind : root.find? before = .ok (walked.filter fun u => !u.isMissing) := by
    rw [find?, hwalk]
    rfl
  have hskip : root.overwrite (before ++ [last]) x = .ok none →
      overwriting (before ++ [last]) x (.start root next) = .ok false (.start root next) :=
    fun hnone => @overwriting_eq x _ (.start root next) none hnone
  cases walked with
  | none => exact ⟨none, false, _, hfind, hskip hover, by simp, fun _ => rfl, by simp⟩
  | some h =>
    have hv := hroot.walk hwalk
    obtain ⟨hnone, hno⟩ | ⟨ws, keys, held, hws, hw, hassigns⟩ := hv.writesAt_cases hshortLast x
    · refine ⟨_, false, _, hfind, hskip (hover.trans hnone), ?_, fun _ => rfl, by simp⟩
      simpa using fun _ hw keys hkeys => hno ⟨hw, keys, hkeys⟩
    have hmissing : h.isMissing = false := by
      by_contra hm
      have ht := isTraversable_of_isWritable hw
      rw [isTraversable_of_isMissing (Bool.not_eq_false _ ▸ hm)] at ht
      cases ht
    have hat := at?_trail hwalk
    have hroot' : (Run.written ws (.start root next)).root =
        root.setAt (root.trail before) (h.assign keys held) := by
      rw [← hassigns.assigned, ← hroot.afterAll_at hat hassigns.targets]
      rfl
    refine ⟨some h, true, _, by rw [hfind, Option.filter, hmissing]; rfl,
      @overwriting_eq x _ (.start root next) (some ws) (hover.trans hws),
      ⟨fun _ => ⟨h, rfl, hw, keys, hassigns.chosen⟩, fun _ => rfl⟩, by simp, fun _ u hu => ?_⟩
    obtain rfl := Option.some.inj hu
    refine ⟨keys, held, hassigns.chosen, hat, hroot', hassigns.keys_eq hv, hassigns.standing,
      hassigns.held_eq, fun hlast hx => ?_⟩
    rw [Option.getD_some, hroot', find?_append (walk_setAt hroot.keyed hwalk), find?,
      hassigns.found hlast hx]
    rfl

end World

namespace Sample

/-- A mapping in a tuple in a mapping, with a number as a key behind a text. -/
def cabinet : Value := .dict 0 [(.text "a", .node 1 (.tuple .plain) none none (indexed
  [.dict 2 [(.text "k", .list 3 [.null]), (.index 1, .null), (.text "m", .null)]]))]

def cargo : Value := .list 4 [.atom (.int 7)]

end Sample

/-- The way leads through a tuple, and a numeral with a leading zero names the number. -/
theorem World.overwriting_assigns_cabinet :
    Sample.cabinet.IsTree ∧ Path.HasShortNumerals (["a", "0"] ++ ["01"]) ∧
      ∃ s, overwriting (["a", "0"] ++ ["01"]) Sample.cargo (.start Sample.cabinet 5) = .ok true s ∧
        s.root.find? ["a", "0", "01"] = .ok (some Sample.cargo) ∧
        s.root.at? [.text "a", .index 0] = some (.dict 2
          [(.text "k", .list 3 [.null]), (.index 1, Sample.cargo), (.text "m", .null)]) := by
  have htree : Sample.cabinet.IsTree := ⟨by decide, by decide, by decide⟩
  have hshort : Path.HasShortNumerals (["a", "0"] ++ ["01"]) := by decide
  obtain ⟨found, wrote, s, hfind, hrun, hiff, _, hwrote⟩ :=
    overwriting_assigns htree hshort Sample.cargo 5
  have hfound : Sample.cabinet.find? ["a", "0"] = .ok (some (.dict 2
      [(.text "k", .list 3 [.null]), (.index 1, .null), (.text "m", .null)])) := by cbv
  obtain rfl := Except.ok.inj (hfind.symm.trans hfound)
  have hruns : overwriting (["a", "0"] ++ ["01"]) Sample.cargo (.start Sample.cabinet 5) = .ok true
      (Run.written [⟨2, .index 1, some Sample.cargo⟩] (.start Sample.cabinet 5)) := by cbv
  obtain ⟨rfl, rfl⟩ := EStateM.Result.ok.inj (hrun.symm.trans hruns)
  obtain ⟨_, _, _, _, _, _, _, _, hlens⟩ := hwrote rfl _ rfl
  exact ⟨htree, hshort, _, hrun, hlens (by decide) rfl, by cbv⟩

end Redaction
