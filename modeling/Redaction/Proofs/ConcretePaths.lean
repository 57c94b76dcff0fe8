import Redaction.Proofs.Ascent
import Redaction.Proofs.Instantiation

/-!
# A wildcard and the paths it stands for

A path with one wildcard stands for the paths in which a key of the container before the wildcard
takes its place, one for each key and in their order. The wildcard is expanded by a loop over the
container as it stood, under the keys themselves; the paths it stands for are read from their
texts, and each is followed from the root as the ones before it have left it. Both do the same,
write for write and question for question.

Main statement: `Engine.run_concrete`.
-/

namespace Redaction

namespace Path

variable {before rest : List String}

theorem index?_isOk {segment : String} (h : Text.isNumeral segment.toList = true →
    segment.toList.length ≤ numeralLimit) : ∃ i, index? segment = .ok i := by
  have hshort : (Text.isNumeral segment.toList && numeralLimit < segment.toList.length) = false := by
    simpa using h
  exact ⟨_, by rw [index?, hshort]; rfl⟩

theorem ne_wildcard_of_mem (h : wildcard ∉ before) :
    ∀ segment ∈ before, decide (segment ≠ wildcard) = true := by
  intro segment mem
  simpa using ne_of_mem_of_not_mem mem h

theorem takeWhile_before (h : wildcard ∉ before) :
    (before ++ wildcard :: rest).takeWhile (· ≠ wildcard) = before := by
  rw [List.takeWhile_append_of_pos (ne_wildcard_of_mem h)]
  simp

theorem drop_dropWhile_before (h : wildcard ∉ before) :
    ((before ++ wildcard :: rest).dropWhile (· ≠ wildcard)).drop 1 = rest := by
  rw [List.dropWhile_append_of_pos (ne_wildcard_of_mem h)]
  simp

end Path

namespace Slots

variable {j k : Key} {slots : List Slot}

theorem get?_erase_of_not_same (h : k.same j = false) : get? j (erase k slots) = get? j slots := by
  induction slots with
  | nil => rfl
  | cons slot rest ih =>
    obtain ⟨name, v⟩ := slot
    by_cases hk : name.same k = true
    · have hj : name.same j = false := by
        by_contra hsame
        have := Key.same_trans (Key.same_comm _ _ ▸ hk) (Bool.not_eq_false _ ▸ hsame)
        simp [h] at this
      simp [erase, get?, hk, hj]
    · simp [erase, get?, hk, ih]

theorem distinct_iff : Distinct slots ↔
    (slots.map Prod.fst).Pairwise fun a b => a.same b = false := by
  rw [List.pairwise_map]
  rfl

theorem distinct_congr {slots' : List Slot} (h : slots'.map Prod.fst = slots.map Prod.fst) :
    Distinct slots' ↔ Distinct slots := by
  rw [distinct_iff, distinct_iff, h]

theorem get?_apply {w : Write} (h : w.key.same j = false) :
    get? j (w.apply slots) = get? j slots := by
  unfold Write.apply
  split
  · exact get?_put_of_not_same _ _ h
  · exact get?_erase_of_not_same h

end Slots

namespace Value

variable {v child : Value} {k : Key}

/-- The text of a key names the slot of the key, unless the key is a number and its numeral is a key
too. -/
theorem slot?_wording (hk : k.isNameable = true) (hget : Slots.get? k v.children = some child)
    (halone : ∀ i, k = .index i → Slots.get? (.text k.wording) v.children = none) :
    v.slot? k.wording = .ok (some (k, child)) := by
  refine slot?_eq_some.mpr ⟨hget, ?_⟩
  rcases (Key.isNameable_cases hk).2.2.2 with htext | ⟨i, rfl, hindex⟩
  · exact .inl htext
  · exact .inr ⟨halone i rfl, i, hindex, rfl⟩

end Value

namespace Run

variable {α β : Type} {censor : Censor} {s t : Workspace} {v x : Value} {path : String}

/-- Computations that go on alike from every outcome of a first one do the same. -/
theorem bind_congr_at {m : Run α} {f g : α → Run β}
    (h : ∀ a t, m s = .ok a t → f a t = g a t) : (m >>= f) s = (m >>= g) s := by
  simp only [bind, EStateM.bind]
  cases hm : m s with
  | ok a t => exact h a t hm
  | error failure t => rfl

theorem performAll_eq (ws : List Write) (s : Workspace) : performAll ws s =
    .ok () { s with root := s.root.afterAll ws, writes := ws.reverse ++ s.writes } := by
  induction ws generalizing s with
  | nil => rfl
  | cons w rest ih =>
    have hstep : performAll (w :: rest) s = performAll rest
        { s with root := s.root.after w, writes := w :: s.writes } := rfl
    rw [hstep, ih]
    simp

end Run

/-- Paths do not lead into what the censor puts in place of a value. -/
def Censor.GivesLeaves : Censor → Prop
  | .literal x => x.kind.isTraversable = false
  | .function f => ∀ told question next x, f told question next = .ok x →
      x.kind.isTraversable = false

namespace Run

variable {censor : Censor} {s t : Workspace} {v x : Value} {path : String}

/-- Asking for a replacement gives the literal value, or the answer of the function, which is then
put on record. -/
theorem replacement_cases (h : censor.replacement v path s = .ok x t) :
    censor = .literal x ∧ t = s ∨
      ∃ f, censor = .function f ∧ f s.consultations ⟨v, path⟩ s.next = .ok x ∧
        t = { s with
          next := max s.next x.bound
          consultations := ⟨v, path⟩ :: s.consultations } := by
  cases censor with
  | literal y =>
    obtain ⟨rfl, rfl⟩ := EStateM.Result.ok.inj h
    exact .inl ⟨rfl, rfl⟩
  | function f =>
    simp only [Censor.replacement, bind, EStateM.bind, get, getThe, MonadStateOf.get, EStateM.get,
      set, EStateM.set] at h
    cases hf : f s.consultations ⟨v, path⟩ s.next with
    | error failure => simp [hf, ofExcept, throw, throwThe, MonadExceptOf.throw, EStateM.throw] at h
    | ok y =>
      rw [hf] at h
      obtain ⟨rfl, rfl⟩ := EStateM.Result.ok.inj h
      exact .inr ⟨f, rfl, hf, rfl⟩

theorem replacement_eq_ok (hc : censor.GivesLeaves) (h : censor.replacement v path s = .ok x t) :
    t.root = s.root ∧ x.kind.isTraversable = false := by
  rcases replacement_cases h with ⟨rfl, rfl⟩ | ⟨f, rfl, hx, rfl⟩
  · exact ⟨rfl, hc⟩
  · exact ⟨rfl, hc _ _ _ _ hx⟩

/-- Makes the writes that overwrite a place, if there are any, and returns the number of places. -/
def carryOut (overwritten : Except Failure (Option (List Write))) : Run Nat := do
  match ← ofExcept overwritten with
  | none => return 0
  | some writes =>
    performAll writes
    return 1

def written (ws : List Write) (s : Workspace) : Workspace :=
  { s with root := s.root.afterAll ws, writes := ws.reverse ++ s.writes }

theorem performAll_then {α : Type} (ws : List Write) (f : Unit → Run α) (s : Workspace) :
    (performAll ws >>= f) s = f () (written ws s) := by
  simp only [bind, EStateM.bind, performAll_eq]
  rfl

theorem carryOut_then (overwritten : Except Failure (Option (List Write))) (m : Run Nat)
    (s : Workspace) : (do let a ← carryOut overwritten; let b ← m; return a + b) s =
      match overwritten with
      | .error failure => .error failure s
      | .ok none => m s
      | .ok (some ws) => (do let b ← m; return b + 1) (written ws s) := by
  rcases overwritten with failure | _ | ws
  · rfl
  · simp only [carryOut, ofExcept, pure_bind, Nat.zero_add, bind_pure]
  · have hthen : (do let a ← carryOut (.ok (some ws)); let b ← m; return a + b) =
        (do performAll ws; let b ← m; return b + 1) := by
      simp only [carryOut, ofExcept, pure_bind, bind_assoc, Nat.add_comm 1]
    rw [hthen, performAll_then]

/-- What redacting a place without wildcard does is known from what its segments find. -/
theorem replaceAt_eq (hc : censor.GivesLeaves) (segments : List String) :
    replaceAt censor path segments s =
      match s.root.find? segments with
      | .error failure => .error failure s
      | .ok none => .ok 0 s
      | .ok (some v) =>
        (do carryOut (s.root.overwrite segments (← censor.replacement v path))) s := by
  have hread : ∀ f : Value → Run Nat, (root >>= f) s = f s.root s := fun _ => rfl
  rw [replaceAt, hread]
  rcases s.root.find? segments with failure | _ | v
  · rfl
  · rfl
  · show (censor.replacement v path >>= fun x => root >>= fun v =>
      carryOut (v.overwrite segments x)) s =
        (censor.replacement v path >>= fun x => carryOut (s.root.overwrite segments x)) s
    refine bind_congr_at fun x t hx => ?_
    have hroot : root t = .ok s.root t := by
      rw [← (replacement_eq_ok hc hx).1]
      rfl
    simp only [bind, EStateM.bind, hroot]

theorem bind_congr_left {α β : Type} {m m' : Run α} (f : α → Run β) (h : m s = m' s) :
    (m >>= f) s = (m' >>= f) s := by
  simp only [bind, EStateM.bind, h]

end Run

/-! ## The expansion and the paths -/

namespace Engine

open Run

variable {censor : Censor} {s : Workspace} {path : String} {segments before suffix : List String}
  {last : String}

theorem applyPaths_cons (hc : censor.GivesLeaves) (h : Path.wildcard ∉ segments)
    (paths : List CompiledPath) : applyPaths censor (⟨path, segments⟩ :: paths) s =
      match s.root.find? segments with
      | .error failure => .error failure s
      | .ok none => applyPaths censor paths s
      | .ok (some v) => (do
        let x ← censor.replacement v path
        let a ← carryOut (s.root.overwrite segments x)
        let b ← applyPaths censor paths
        return a + b) s := by
  have hplain : applyPath censor ⟨path, segments⟩ = replaceAt censor path segments := by
    simp [applyPath, CompiledPath.hasWildcard, h]
  have hread := @replaceAt_eq censor s path hc segments
  rw [applyPaths, hplain]
  revert hread
  rcases s.root.find? segments with failure | _ | v <;> intro hread
  · simp only [bind, EStateM.bind, hread]
  · have hread : replaceAt censor path segments s = (pure 0 : Run Nat) s := hread
    rw [bind_congr_left _ hread]
    simp only [pure_bind, Nat.zero_add, bind_pure]
  · have hread : replaceAt censor path segments s = (censor.replacement v path >>= fun x =>
      carryOut (s.root.overwrite segments x)) s := hread
    rw [bind_congr_left _ hread]
    simp only [bind_assoc]

/-- The path in which a key stands for the wildcard. -/
def concrete (path : String) (before rest : List String) (k : Key) : CompiledPath :=
  ⟨Path.instantiate path k.wording, before ++ k.wording :: rest⟩

theorem not_mem_concrete {rest : List String} {k : Key} (hbefore : Path.wildcard ∉ before)
    (hrest : Path.wildcard ∉ rest) (hk : k.isNameable = true) :
    Path.wildcard ∉ before ++ k.wording :: rest := by
  have hwording := (Key.isNameable_cases hk).2.1
  simp [hbefore, hrest, Ne.symm hwording]

theorem replaceBelow_cons {container branch : Value} {key : Key}
    (h : Slots.get? key container.children = some branch) (htakes : Path.takes path key = true)
    (keys : List Key) :
    replaceBelow censor path suffix last container (key :: keys) s =
      match affected? branch suffix last with
      | .error failure => .error failure s
      | .ok none => replaceBelow censor path suffix last container keys s
      | .ok (some v) => (do
        let x ← censor.replacement v (Path.instantiate path key.wording)
        match ← Run.ofExcept (branch.overwrite (suffix ++ [last]) x) with
        | none => replaceBelow censor path suffix last container keys
        | some writes =>
          performAll writes
          let count ← replaceBelow censor path suffix last (container.afterAll writes) keys
          return count + 1) s := by
  rw [replaceBelow, h]
  dsimp only
  rcases affected? branch suffix last with failure | _ | v
  · rfl
  · rfl
  · dsimp only
    rw [← Censor.replacementAt_of_takes htakes]
    rfl

structure Spells (before : List String) (root container : Value) (keys : List Key) : Prop where
  rises : root.Rises 0
  leads : root.walk before = .ok (some container)
  traversable : container.kind.isTraversable = true
  nameable : ∀ k ∈ keys, k.isNameable = true
  held : ∀ k ∈ keys, (Slots.get? k container.children).isSome = true
  alone : ∀ i, .index i ∈ keys →
    Slots.get? (.text (Key.index i).wording) container.children = none

namespace Spells

variable {root container branch x : Value} {key : Key} {keys : List Key} {segments : List String}
  {ws : List Write}

theorem tail (h : Spells before root container (key :: keys)) :
    Spells before root container keys where
  rises := h.rises
  leads := h.leads
  traversable := h.traversable
  nameable k mem := h.nameable k (List.mem_cons_of_mem key mem)
  held k mem := h.held k (List.mem_cons_of_mem key mem)
  alone i mem := h.alone i (List.mem_cons_of_mem key mem)

theorem slot? (h : Spells before root container (key :: keys))
    (hbranch : Slots.get? key container.children = some branch) :
    container.slot? key.wording = .ok (some (key, branch)) := by
  refine Value.slot?_wording (h.nameable key List.mem_cons_self) hbranch ?_
  rintro i rfl
  exact h.alone i List.mem_cons_self

theorem exists_node (h : Spells before root container (key :: keys))
    (hbranch : Slots.get? key container.children = some branch) :
    ∃ id shape tag snapshot slots, container = .node id shape tag snapshot slots ∧
      branch.Rises (id + 1) := by
  obtain ⟨id, shape, tag, snapshot, slots, heq, _, hrises⟩ :=
    (h.rises.walk h.leads).slot? (h.slot? hbranch)
  exact ⟨id, shape, tag, snapshot, slots, heq, hrises⟩

/-- Following the segments from the root is following the rest of them from the branch. -/
theorem find?_branch (h : Spells before root container (key :: keys))
    (hbranch : Slots.get? key container.children = some branch) (rest : List String) :
    root.find? (before ++ key.wording :: rest) = branch.find? rest := by
  rw [Value.find?_append h.leads, Value.find?_cons (h.slot? hbranch)]

theorem overwrite_branch (h : Spells before root container (key :: keys))
    (hbranch : Slots.get? key container.children = some branch) (hne : segments ≠ []) (x : Value) :
    root.overwrite (before ++ key.wording :: segments) x = branch.overwrite segments x := by
  rw [Value.overwrite_append h.leads (by simp), Value.overwrite_cons (h.slot? hbranch) hne]

/-- Overwriting a place in the branch changes neither the way to the container nor which slots the
container has. -/
theorem afterAll (h : Spells before root container (key :: keys))
    (hbranch : Slots.get? key container.children = some branch)
    (hx : x.kind.isTraversable = false) (hws : branch.overwrite segments x = .ok (some ws)) :
    Spells before (root.afterAll ws) (container.afterAll ws) keys := by
  obtain ⟨id, shape, tag, snapshot, slots, rfl, hrises⟩ := h.exists_node hbranch
  have ht : shape.kind.isTraversable = true := h.traversable
  have hbelow := hrises.overwrite hx hws
  obtain ⟨tag', snapshot', slots', hafter, hkeys⟩ :=
    @Value.exists_afterAll ws id shape tag snapshot slots fun w mem => Nat.ne_of_lt (hbelow w mem).1
  have hslots := Slots.isSome_get?_congr hkeys
  have hleads := h.rises.walk_afterAll h.leads ht fun w mem =>
    ⟨Nat.le_of_succ_le (hbelow w mem).1, (hbelow w mem).2⟩
  have hheld := h.tail.held
  have halone := h.tail.alone
  rw [Value.children_node ht] at hheld halone
  rw [hafter] at hleads ⊢
  refine ⟨h.rises.afterAll fun w mem => (hbelow w mem).2, hleads, ht, h.tail.nameable, ?_, ?_⟩ <;>
    rw [Value.children_node ht]
  · exact fun k mem => (hslots k).trans (hheld k mem)
  · intro i mem
    have hnone := hslots (.text (Key.index i).wording)
    rw [halone i mem] at hnone
    simpa using hnone

end Spells

/-- Below the first wildcard, branches are redacted like the paths that lead through them. -/
theorem applyPaths_below (hc : censor.GivesLeaves) (hbefore : Path.wildcard ∉ before)
    (hsuffix : Path.wildcard ∉ suffix ++ [last]) {container : Value} {keys : List Key}
    (h : Spells before s.root container keys) :
    applyPaths censor (keys.map (concrete path before (suffix ++ [last]))) s =
      replaceBelow censor path suffix last container keys s := by
  induction keys generalizing s container with
  | nil => rfl
  | cons key rest ih =>
    have hkey := h.nameable key List.mem_cons_self
    obtain ⟨branch, hbranch⟩ := Option.isSome_iff_exists.mp (h.held key List.mem_cons_self)
    obtain ⟨id, shape, tag, snapshot, slots, _, hrises⟩ := h.exists_node hbranch
    have hlast : last ≠ Path.wildcard := fun heq => hsuffix (by simp [heq])
    have hfind : s.root.find? (before ++ key.wording :: (suffix ++ [last])) =
        affected? branch suffix last := by
      rw [h.find?_branch hbranch]
      exact (Value.affected?_eq_find?_of (fun u hu => (hrises.walk hu).isTraversable_eq) hlast).symm
    rw [List.map_cons, concrete, applyPaths_cons hc (not_mem_concrete hbefore hsuffix hkey), hfind,
      replaceBelow_cons hbranch (Path.takes_of_hasText (Key.hasText_of_isNameable hkey))]
    rcases affected? branch suffix last with failure | _ | v
    · rfl
    · exact ih h.tail
    · refine bind_congr_at fun x t hx => ?_
      obtain ⟨hroot, hleaf⟩ := replacement_eq_ok hc hx
      rw [← hroot] at h ⊢
      rw [h.overwrite_branch hbranch (by simp), carryOut_then]
      cases hws : branch.overwrite (suffix ++ [last]) x with
      | error failure => rfl
      | ok writes =>
        rcases writes with _ | ws
        · exact ih h.tail
        · show _ = (performAll ws >>= fun _ => do
            let count ← replaceBelow censor path suffix last (container.afterAll ws) rest
            return count + 1) t
          rw [performAll_then]
          exact bind_congr_left _ (ih (h.afterAll hbranch hleaf hws))

/-- A slot of a container with the given identity that is still to be redacted. -/
structure Pending (id : Ident) (slots : List Slot) (slot : Slot) : Prop where
  nameable : slot.1.isNameable = true
  held : Slots.get? slot.1 slots = some slot.2
  alone : ∀ i, slot.1 = .index i → Slots.get? (.text slot.1.wording) slots = none
  own : id ∉ slot.2.ids
  present : slot.2.isMissing = false

theorem Pending.after {id : Ident} {slots : List Slot} {slot other : Slot} {w : Write}
    (h : Pending id slots slot) (hother : Pending id slots other)
    (hsame : other.1.same slot.1 = false) (hid : w.target = id) (hkey : w.key = other.1) :
    Pending id (w.apply (Value.afterSlots w slots)) slot := by
  refine ⟨h.nameable, ?_, fun i hi => ?_, h.own, h.present⟩
  · rw [Slots.get?_apply (hkey ▸ hsame), Value.afterSlots_eq_map, Slots.get?_map, h.held,
      Option.map_some, Value.after_of_not_mem w slot.2 (hid ▸ h.own)]
  · have hnone := h.alone i hi
    have htext : w.key.same (.text slot.1.wording) = false := by
      by_contra hsame
      have heq := Key.eq_text_of_same (Bool.not_eq_false _ ▸ hsame)
      rw [← heq, hkey, hother.held] at hnone
      simp at hnone
    rw [Slots.get?_apply htext, Value.afterSlots_eq_map, Slots.get?_map, hnone, Option.map_none]

/-- A wildcard at the end: the slots of the container are redacted like the paths to them, although
the container is read once and the paths are followed one after another. -/
theorem applyPaths_each (hc : censor.GivesLeaves) (hbefore : Path.wildcard ∉ before) {id : Ident}
    {shape : Shape} {tag snapshot tag₀ snapshot₀ : Option Value} {slots slots₀ pending : List Slot}
    (hw : shape.kind.isWritable = true) (hroot : s.root.Rises 0)
    (hleads : s.root.walk before = .ok (some (.node id shape tag snapshot slots)))
    (hdistinct : Slots.Distinct pending) (hpending : ∀ slot ∈ pending, Pending id slots slot) :
    applyPaths censor (pending.map fun slot => concrete path before [] slot.1) s =
      replaceEach censor path (.node id shape tag₀ snapshot₀ slots₀) pending s := by
  have ht := Value.isTraversable_of_isWritable hw
  induction pending generalizing s tag snapshot slots with
  | nil => rfl
  | cons slot rest ih =>
    obtain ⟨key, v⟩ := slot
    obtain ⟨hslot, hrest⟩ := List.forall_mem_cons.mp hpending
    obtain ⟨hfirst, hdistinct⟩ := List.pairwise_cons.mp hdistinct
    have hnames : (Value.node id shape tag snapshot slots).slot? key.wording =
        .ok (some (key, v)) := by
      refine Value.slot?_wording hslot.nameable ?_ ?_ <;> rw [Value.children_node ht]
      exacts [hslot.held, hslot.alone]
    have hfind : s.root.find? (before ++ [key.wording]) = .ok (some v) := by
      rw [Value.find?_append hleads, Value.find?_cons hnames]
      exact Value.find?_eq_some.mpr ⟨rfl, hslot.present⟩
    have hwrite : ∀ tag snapshot slots x, Value.writeTo (.node id shape tag snapshot slots) key x =
        some ⟨id, key, Value.settled shape.kind x⟩ := by
      simp [Value.writeTo, hw]
    have hover : ∀ x, s.root.overwrite (before ++ [key.wording]) x =
        .ok (some [⟨id, key, Value.settled shape.kind x⟩]) := by
      intro x
      have hstar : key.wording ≠ Path.wildcard := (Key.isNameable_cases hslot.nameable).2.1
      have hkind : (Value.node id shape tag snapshot slots).kind.isWritable = true := hw
      rw [Value.overwrite, List.getLast?_concat, List.dropLast_concat, hleads]
      simp [Value.writesAt, hkind, hstar, hnames, Except.map, hwrite]
    rw [List.map_cons, concrete,
      applyPaths_cons hc (not_mem_concrete hbefore (by simp) hslot.nameable), hfind, replaceEach,
      Censor.replacementAt_of_takes
        (Path.takes_of_hasText (Key.hasText_of_isNameable hslot.nameable))]
    refine bind_congr_at fun x t hx => ?_
    obtain ⟨hsroot, hleaf⟩ := replacement_eq_ok hc hx
    rw [hover, carryOut_then, hwrite, Option.toList_some, performAll_then]
    set w : Write := ⟨id, key, Value.settled shape.kind x⟩
    have hroot' : (written [w] t).root = s.root.after w := by
      rw [← hsroot]
      rfl
    have hcontent : ∀ y ∈ w.content, y.kind.isTraversable = false :=
      fun y hy => Value.isTraversable_settled hleaf hy
    have hleads' : (written [w] t).root.walk before = .ok (some (.node id shape
        (Value.afterOption w tag) (Value.afterOption w snapshot)
        (w.apply (Value.afterSlots w slots)))) := by
      rw [hroot', hroot.walk_after hleads ht le_rfl, Value.after, if_pos rfl]
    exact bind_congr_left _ (ih (hroot' ▸ hroot.after hcontent) hleads' hdistinct
      fun other mem => (hrest other mem).after hslot (hfirst other mem) rfl rfl)

end Engine

namespace Value

/-- The keys of the container that segments lead to, if they lead to one. -/
def keysAt (v : Value) (segments : List String) : List Key :=
  match v.find? segments with
  | .ok (some container) => container.keys
  | _ => []

/-- The keys that the first wildcard of a path stands for. -/
def keysFor (v : Value) (path : String) : List Key :=
  v.keysAt ((Path.segments path).takeWhile (· ≠ Path.wildcard))

/-- No slot that paths lead to holds the marker for nothing found. -/
def isMarkerFree (v : Value) : Bool :=
  v.everywhere fun u => u.slots.all fun slot => !slot.2.isMissing

/-- A container of a value and its counterpart in the working copy, of which all keys can be
spelled: the slots of the counterpart are duplicates, and all of them are pending. -/
theorem pending_renew {id : Ident} {shape : Shape} {tag snapshot : Option Value}
    {slots : List Slot} {next m : Ident} (ht : shape.kind.isTraversable = true)
    (hids : ∀ i ∈ (node id shape tag snapshot slots).ids, i < next) (hm : next ≤ m)
    (hwell : (node id shape tag snapshot slots).isWellKeyed = true)
    (hmarker : (node id shape tag snapshot slots).isMarkerFree = true)
    (hkeys : ∀ k ∈ slots.map Prod.fst, k.isNameable = true)
    (halone : ∀ i, .index i ∈ slots.map Prod.fst →
      .text (Key.index i).wording ∉ slots.map Prod.fst) :
    ∃ i shape' tag' snapshot' slots',
      ((node id shape tag snapshot slots).renew true m).1 = node i shape' tag' snapshot' slots' ∧
      shape'.kind.isWritable = true ∧ slots'.map Prod.fst = slots.map Prod.fst ∧
      Slots.Distinct slots' ∧ ∀ slot ∈ slots', Engine.Pending i slots' slot := by
  obtain ⟨i, shape', tag', snapshot', slots', hi, _, hw, hrenewed, heq⟩ := renew_node true ht m
  have hobjects : ∀ slot ∈ slots, slot.1.holdsObject = false := fun slot mem =>
    (Key.isNameable_cases (hkeys slot.1 (List.mem_map_of_mem mem))).2.2.1
  obtain rfl := hrenewed.eq hobjects
  have hfst := renewSlots_fst true slots (i + 1)
  have hdistinct : Slots.Distinct (renewSlots true slots (i + 1)).1 :=
    (Slots.distinct_congr hfst).mpr (keysDiffer_iff.mp ((everywhere_node ht).mp hwell).1)
  refine ⟨i, shape', tag', snapshot', _, by rw [heq], hw rfl, hfst, hdistinct, fun slot mem => ?_⟩
  have hkey : slot.1 ∈ slots.map Prod.fst := hfst ▸ List.mem_map_of_mem mem
  refine ⟨hkeys _ hkey, Slots.get?_of_mem hdistinct mem (Key.same_refl _), fun j hj => ?_, ?_, ?_⟩
  · refine Slots.get?_eq_none.mpr fun other memOther => ?_
    by_contra hsame
    have heq := Key.eq_text_of_same (Bool.not_eq_false _ ▸ hsame)
    rw [hj] at hkey heq
    exact halone j hkey (heq ▸ hfst ▸ List.mem_map_of_mem memOther)
  · obtain ⟨old, memOld, n, hn, rfl⟩ := mem_renewSlots mem
    have hold : ∀ j ∈ old.2.ids, j < next := fun j hj =>
      hids j (mem_ids_node.mpr (.inr (.inr (.inr ⟨old, memOld, hj⟩))))
    have hfresh := (renew_fresh true fun j hj =>
      (hold j hj).trans_le (by lia : next ≤ n)).2
    intro hown
    rcases mem_ids.mp hown with hown | hown
    · have := (hfresh.reach i hown).1
      lia
    · rcases hfresh.hidden i hown with hown | ⟨hown, _⟩
      · have := hold i (hidden_subset_ids hown)
        lia
      · lia
  · obtain ⟨old, memOld, n, hn, rfl⟩ := mem_renewSlots mem
    have hpresent := ((everywhere_node ht).mp hmarker).1
    simp only [Value.slots, List.all_eq_true] at hpresent
    rw [isMissing_renew]
    simpa using hpresent old memOld

end Value

namespace Engine

open Run

variable {censor : Censor} {path : String} {before rest : List String} {v : Value}
  {n next : Ident}

/-- What the first wildcard of a path makes of the container that it is met at. -/
def expandAt (censor : Censor) (path : String) (rest : List String) (container : Value) : Run Nat :=
  match rest.getLast? with
  | none =>
    if container.kind.isWritable then replaceEach censor path container container.children
    else return 0
  | some last => replaceBelow censor path rest.dropLast last container container.keys

/-- What the expansion of a path does is known from what stands before the first wildcard. -/
theorem expand_eq (hbefore : Path.wildcard ∉ before) (s : Workspace) :
    expand censor path (before ++ Path.wildcard :: rest) s =
      match s.root.find? before with
      | .error failure => .error failure s
      | .ok none => .ok 0 s
      | .ok (some container) => expandAt censor path rest container s := by
  have hsome : (!(before ++ Path.wildcard :: rest).contains Path.wildcard) = false := by simp
  unfold expand
  rw [hsome, Path.takeWhile_before hbefore, Path.drop_dropWhile_before hbefore]
  show (Run.ofExcept (s.root.find? before) >>= _) s = _
  rcases s.root.find? before with failure | _ | container <;> rfl

theorem expandAt_of_not_traversable {u : Value} (ht : u.kind.isTraversable = false) :
    expandAt censor path rest u = pure 0 := by
  have hkeys : u.keys = [] := by rw [Value.keys, Value.children_of_not_traversable ht]; rfl
  have hw : u.kind.isWritable = false := by
    by_contra h
    simp [Value.isTraversable_of_isWritable (Bool.not_eq_false _ ▸ h)] at ht
  unfold expandAt
  rw [hkeys, hw]
  rcases rest.getLast? with _ | last <;> rfl

/-- At a container of which all slots are pending, a wildcard does what the paths to them do. -/
theorem applyPaths_pending (hc : censor.GivesLeaves) (hbefore : Path.wildcard ∉ before)
    (hrest : Path.wildcard ∉ rest) {s : Workspace} {id : Ident} {shape : Shape}
    {tag snapshot : Option Value} {slots : List Slot} (hw : shape.kind.isWritable = true)
    (hroot : s.root.Rises 0)
    (hleads : s.root.walk before = .ok (some (.node id shape tag snapshot slots)))
    (hdistinct : Slots.Distinct slots) (hpending : ∀ slot ∈ slots, Pending id slots slot) :
    applyPaths censor ((slots.map Prod.fst).map (concrete path before rest)) s =
      expandAt censor path rest (.node id shape tag snapshot slots) s := by
  have ht := Value.isTraversable_of_isWritable hw
  have hchildren : (Value.node id shape tag snapshot slots).children = slots :=
    Value.children_node ht
  unfold expandAt
  rcases List.eq_nil_or_concat' rest with rfl | ⟨suffix, last, rfl⟩
  · have hkind : (Value.node id shape tag snapshot slots).kind.isWritable = true := hw
    rw [List.getLast?_nil, if_pos hkind, hchildren, List.map_map]
    exact applyPaths_each hc hbefore hw hroot hleads hdistinct hpending
  · rw [List.getLast?_concat, List.dropLast_concat, Value.keys, hchildren]
    refine applyPaths_below hc hbefore hrest ⟨hroot, hleads, ht, ?_, ?_, ?_⟩ <;>
      simp only [hchildren, List.forall_mem_map]
    · exact fun slot mem => (hpending slot mem).nameable
    · exact fun slot mem => by rw [(hpending slot mem).held]; rfl
    · intro i mem
      obtain ⟨slot, memSlot, hslot⟩ := List.mem_map.mp mem
      exact hslot ▸ (hpending slot memSlot).alone i hslot

/-- The expansion of a path with one wildcard on a working copy does what the paths do that the
wildcard stands for. -/
theorem expand_eq_applyPaths (hc : censor.GivesLeaves) (hbefore : Path.wildcard ∉ before)
    (hrest : Path.wildcard ∉ rest)
    (hnumerals : ∀ segment ∈ before, ∃ i, Path.index? segment = .ok i)
    (hwell : v.isWellKeyed = true) (hmarker : v.isMarkerFree = true)
    (hids : ∀ id ∈ v.ids, id < next)
    (hkeys : ∀ k ∈ v.keysAt before, k.isNameable = true)
    (halone : ∀ i, .index i ∈ v.keysAt before → .text (Key.index i).wording ∉ v.keysAt before) :
    applyPaths censor ((v.keysAt before).map (concrete path before rest))
        (.start (v.renew true next).1 n) =
      expand censor path (before ++ Path.wildcard :: rest) (.start (v.renew true next).1 n) := by
  obtain ⟨found, hfound⟩ := v.walk_isOk hnumerals
  obtain ⟨m, hm, hfind⟩ := Value.find?_renew true v next before
  have hroot : (Workspace.start (v.renew true next).1 n).root = (v.renew true next).1 := rfl
  rw [expand_eq hbefore, hroot, hfind]
  rcases hcontainer : v.find? before with failure | _ | u
  · simp [Value.find?, hfound, Except.map] at hcontainer
  · rw [Value.keysAt, hcontainer]
    rfl
  obtain ⟨hwalk, -⟩ := Value.find?_eq_some.mp hcontainer
  have hkeysAt : v.keysAt before = u.keys := by rw [Value.keysAt, hcontainer]
  rw [hkeysAt] at hkeys halone ⊢
  simp only [Except.map, Option.map_some]
  by_cases ht : u.kind.isTraversable = true
  · cases u with
    | scalar s => simp [Value.isTraversable_scalar] at ht
    | node id shape tag snapshot slots =>
      simp only [Value.keys, Value.children_node ht] at hkeys halone ⊢
      obtain ⟨i, shape', tag', snapshot', slots', heq, hw, hfst, hdistinct, hpending⟩ :=
        Value.pending_renew ht (fun i hi => hids i ((Value.walk_subset hwalk).2 hi)) hm
          (Value.everywhere_walk hwell hwalk) (Value.everywhere_walk hmarker hwalk) hkeys halone
      have hleads : (v.renew true next).1.walk before =
          .ok (some (.node i shape' tag' snapshot' slots')) := by
        rw [hcontainer] at hfind
        rw [← heq]
        exact (Value.find?_eq_some.mp hfind).1
      rw [heq, ← hfst]
      exact applyPaths_pending hc hbefore hrest hw
        ((Value.rises_renew v next).mono (Nat.zero_le _)) hleads hdistinct hpending
  · have ht : u.kind.isTraversable = false := by simpa using ht
    rw [Value.renew_of_not_traversable ht, expandAt_of_not_traversable ht, Value.keys,
      Value.children_of_not_traversable ht]
    rfl

end Engine

def Policy.withPaths (policy : Policy) (paths : List String) : Policy := { policy with paths }

namespace Engine

variable {path : String} {v : Value} {next : Ident}

theorem run_withPaths_congr {policy : Policy} {a b : List String}
    (hkind : v.kind.isTraversable = true)
    (h : ∀ n, applyPaths policy.applied (paths ⟨policy.withPaths b⟩)
        (.start (v.renew true next).1 n) =
      applyPaths policy.applied (paths ⟨policy.withPaths a⟩) (.start (v.renew true next).1 n)) :
    let left := run ⟨policy.withPaths a⟩ v next
    let right := run ⟨policy.withPaths b⟩ v next
    right.result = left.result ∧ right.consultations = left.consultations ∧
      right.writes = left.writes ∧ right.next = left.next := by
  have hpass : ∀ paths, ((⟨policy.withPaths paths⟩ : Engine).policy.strict &&
      !v.kind.isTraversable) = false := by simp [hkind]
  have hprepare : prepare ⟨policy.withPaths b⟩ v next = prepare ⟨policy.withPaths a⟩ v next := rfl
  simp only [run, hpass, hprepare, Bool.false_eq_true, if_false]
  cases hbegun : prepare ⟨policy.withPaths a⟩ v next with
  | error failure => exact ⟨rfl, rfl, rfl, rfl⟩
  | ok begun =>
    obtain ⟨working, snapshot, n⟩ := begun
    obtain ⟨_, rfl, _⟩ := prepare_eq_ok hbegun
    have happlied : ∀ paths, (⟨policy.withPaths paths⟩ : Engine).policy.applied = policy.applied :=
      fun _ => rfl
    have hclose : close ⟨policy.withPaths b⟩ = close ⟨policy.withPaths a⟩ := by
      funext snapshot working n
      unfold close
      rfl
    simp only [happlied, hclose, h]
    cases applyPaths policy.applied (paths ⟨policy.withPaths a⟩)
      (.start (v.renew true next).1 n) with
    | error failure s => exact ⟨rfl, rfl, rfl, rfl⟩
    | ok count s =>
      dsimp only
      rcases close ⟨policy.withPaths a⟩ snapshot s.root s.next with ⟨result, unused⟩
      exact ⟨rfl, rfl, rfl, rfl⟩

/-- A path with one wildcard means the list of its concrete paths. -/
theorem run_concrete {policy : Policy} (haccepts : Path.accepts path = true)
    (hone : (Path.segments path).count Path.wildcard = 1)
    (hnumerals : ∀ segment ∈ Path.segments path,
      Text.isNumeral segment.toList = true → segment.toList.length ≤ numeralLimit)
    (hkind : v.kind.isTraversable = true) (hwell : v.isWellKeyed = true)
    (hids : ∀ id ∈ v.ids, id < next) (hmarker : v.isMarkerFree = true)
    (hc : policy.applied.GivesLeaves) (hkeys : ∀ k ∈ v.keysFor path, k.isNameable = true)
    (halone : ∀ i, .index i ∈ v.keysFor path → .text (Key.index i).wording ∉ v.keysFor path) :
    let paths := (v.keysFor path).map fun k => Path.instantiate path k.wording
    let expanded := run ⟨policy.withPaths [path]⟩ v next
    let listed := run ⟨policy.withPaths paths⟩ v next
    (∀ p ∈ paths, Path.accepts p = true) ∧ listed.result = expanded.result ∧
      listed.consultations = expanded.consultations ∧ listed.writes = expanded.writes ∧
      listed.next = expanded.next := by
  intro paths expanded listed
  have hwildcard : Path.wildcard ∈ Path.segments path := List.count_pos_iff.mp (by lia)
  obtain ⟨_, _, before, rest, _, hsegments, hbefore, hlabel⟩ := Path.exists_star hwildcard
  have hrest : Path.wildcard ∉ rest := by
    rw [hsegments] at hone
    exact List.count_eq_zero.mp (by simpa [List.count_eq_zero_of_not_mem hbefore] using hone)
  have hkeysFor : v.keysFor path = v.keysAt before := by
    rw [Value.keysFor, hsegments, Path.takeWhile_before hbefore]
  rw [hkeysFor] at hkeys halone
  have hnames : ∀ k ∈ v.keysAt before,
      Path.segments (Path.instantiate path k.wording) = before ++ k.wording :: rest ∧
        Path.accepts (Path.instantiate path k.wording) = true := by
    intro k mem
    obtain ⟨_, hread, haccept⟩ := hlabel k.wording (Key.isNameable_cases (hkeys k mem)).1
    exact ⟨hread, haccept.trans haccepts⟩
  refine ⟨?_, ?_⟩
  · simp only [paths, hkeysFor, List.forall_mem_map]
    exact fun k mem => (hnames k mem).2
  refine run_withPaths_congr hkind fun n => ?_
  have hpaths : Engine.paths ⟨policy.withPaths paths⟩ =
      (v.keysAt before).map (concrete path before rest) := by
    simp only [Engine.paths, Policy.withPaths, paths, hkeysFor, List.map_map]
    refine List.map_congr_left fun k mem => ?_
    simp [concrete, (hnames k mem).1]
  have hsingle : Engine.paths ⟨policy.withPaths [path]⟩ =
      [⟨path, before ++ Path.wildcard :: rest⟩] := by
    rw [← hsegments]
    rfl
  have hnumbers : ∀ segment ∈ before, ∃ i, Path.index? segment = .ok i := fun segment mem =>
    Path.index?_isOk (hnumerals segment (by simp [hsegments, mem]))
  rw [hpaths, hsingle, expand_eq_applyPaths hc hbefore hrest hnumbers hwell hmarker hids hkeys
    halone]
  have hexpand : applyPath policy.applied ⟨path, before ++ Path.wildcard :: rest⟩ =
      Run.expand policy.applied path (before ++ Path.wildcard :: rest) := by
    simp [applyPath, CompiledPath.hasWildcard]
  simp only [applyPaths, hexpand, pure_bind, Nat.add_zero, bind_pure]

end Engine

namespace Sample

def rows : Value := .list 1
  [.dict 2 [(.text "id", .atom (.int 1))], .atom (.int 7), .dict 3 [(.text "id", .text "x")]]

def table : Value := .dict 0 [(.text "rows", rows)]

def telling : Policy where
  paths := []
  censor := .tellPath
  output := .live
  strict := true
  remove := false
  debug := false
  given := []

end Sample

theorem Censor.givesLeaves_tellPath : tellPath.GivesLeaves := by
  intro told question next x h
  obtain rfl := Except.ok.inj h
  rfl

/-- The number in the list is passed over by the wildcard, and the path to it leads nowhere. -/
theorem Engine.run_concrete_rows :
    Sample.table.keysFor "rows['*'].id" = [.index 0, .index 1, .index 2] ∧
      (run ⟨Sample.telling.withPaths ["rows['0'].id", "rows['1'].id", "rows['2'].id"]⟩
        Sample.table 4).result =
      (run ⟨Sample.telling.withPaths ["rows['*'].id"]⟩ Sample.table 4).result ∧
      (run ⟨Sample.telling.withPaths ["rows['*'].id"]⟩ Sample.table 4).consultations.map
        Consultation.path = ["rows['0'].id", "rows['2'].id"] := by
  have hkeysFor : Sample.table.keysFor "rows['*'].id" = [.index 0, .index 1, .index 2] := by cbv
  have hsame := @run_concrete "rows['*'].id" Sample.table 4 Sample.telling (by decide) (by decide)
    (by decide) rfl (by decide) (by decide) (by decide) Censor.givesLeaves_tellPath (by
      rw [hkeysFor]
      decide) (by
      rw [hkeysFor]
      intro i _ mem
      simp [Key.text, Key.index] at mem)
  have hpaths : [Key.index 0, Key.index 1, Key.index 2].map
      (fun k => Path.instantiate "rows['*'].id" k.wording) =
        ["rows['0'].id", "rows['1'].id", "rows['2'].id"] := by cbv
  refine ⟨hkeysFor, ?_, by cbv⟩
  rw [hkeysFor, hpaths] at hsame
  exact hsame.2.1

end Redaction
