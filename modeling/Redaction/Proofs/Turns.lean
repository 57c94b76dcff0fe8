import Redaction.Proofs.UnsharedCopy

/-!
# The turns of a path

Applying a path is a row of turns. In each the censor is asked about one place, and what it answers
is stored there. While every container that can be written stands in one place, what a turn writes
is known from the value that the path was applied to: no turn before it has written into the branch
that it follows.

So a property of workspaces that asking keeps and that storing keeps is kept by the path, whether
the path succeeds or fails.

Main statement: `Engine.applyPath_keeps`.
-/

namespace Redaction

/-- The last segment of the path is a wildcard, and not its first one. -/
def CompiledPath.fills (path : CompiledPath) : Bool :=
  ((path.segments.dropWhile (· ≠ Path.wildcard)).drop 1).getLast? == some Path.wildcard

/-- Writes that store the answer `x` to a question where the path leads to in `v`. There are several
only where a second wildcard at the end of the path fills a container. -/
structure CompiledPath.Stores (path : CompiledPath) (v : Value) (question : Consultation)
    (x : Value) (ws : List Write) : Prop where
  along : ∀ w ∈ ws, w ∈ Value.writesAlong (Path.strides path.segments) (fun _ => x) v
  single : ws.length ≤ 1 ∨ path.fills = true ∧ 1 < question.value.children.length ∧
    ∃ k : Key, question.path = Path.instantiate path.text k.wording

/-- A property of workspaces is kept when a question fails, and when its answer is stored where the
path leads to in `v`. -/
structure Censor.Keeps (censor : Censor) (path : CompiledPath) (v : Value)
    (P : Workspace → Prop) : Prop where
  fails : ∀ {s t : Workspace} {question : Consultation} {failure : Failure}, P s →
    censor.replacement question.value question.path s = .error failure t → P t
  stores : ∀ {s t : Workspace} {question : Consultation} {x : Value} {ws : List Write}, P s →
    censor.replacement question.value question.path s = .ok x t →
    path.Stores v question x ws → P (Run.written ws t)

namespace Value

variable {v u x y : Value} {w : Write} {ws : List Write} {segments : List String} {last : String}
  {strides : List Stride}

/-! ## What one answer is stored by -/

/-- The writes along strides land in containers that can be written and store replacements. -/
theorem mutable_of_mem_writesAlong {x : Option Key → Value} (h : w ∈ writesAlong strides x v) :
    w.target ∈ v.mutables ∧ ∃ l kind, w.content = settled kind (x l) := by
  refine @writesAlong_induction (fun v w => w.target ∈ v.mutables) (fun {v y k w} hw => ?_)
    (fun mem htarget => mutables_child mem htarget) _ _ _ _ h
  obtain ⟨shape, tag, snapshot, slots, rfl, hshape, _, _⟩ := writeTo_eq_some hw
  exact mem_mutables_node.mpr (.inl ⟨hshape, rfl⟩)

/-- What is found at a place without wildcard that is then overwritten is what would be affected. -/
theorem affected?_of_overwrite (hlast : last ≠ Path.wildcard)
    (hfind : v.find? (segments ++ [last]) = .ok (some u))
    (h : v.overwrite (segments ++ [last]) y = .ok (some ws)) :
    Run.affected? v segments last = .ok (some u) := by
  simp only [overwrite, List.getLast?_concat, List.dropLast_concat] at h
  cases hwalk : v.walk segments with
  | error failure => simp [hwalk] at h
  | ok found =>
    cases found with
    | none => simp [hwalk] at h
    | some container =>
      rw [hwalk] at h
      have hw : container.kind.isWritable = true := by
        by_contra hw
        have hw : container.kind.isWritable = false := by simpa using hw
        simp [writesAt, hw] at h
      rw [affected?_eq_find?_of (fun u hu => ?_) hlast, hfind]
      obtain rfl : container = u := by simpa [hwalk] using hu
      rw [hw, isTraversable_of_isWritable hw]

/-- One answer is stored by one write, but where a wildcard at the end fills a container. -/
theorem length_of_overwrite (ha : Run.affected? v segments last = .ok (some u))
    (h : v.overwrite (segments ++ [last]) y = .ok (some ws)) :
    ws.length ≤ 1 ∨ last = Path.wildcard ∧ ws.length ≤ u.children.length := by
  unfold Run.affected? at ha
  split at ha
  · cases ha
  · cases ha
  · rename_i container hfind
    simp only [overwrite, List.getLast?_concat, List.dropLast_concat,
      (find?_eq_some.mp hfind).1, writesAt] at h
    split at ha
    · cases ha
    · rename_i hw
      simp only [hw, Bool.false_eq_true, if_false] at h
      split at ha
      · rename_i hlast
        obtain rfl : container = u := by simpa using ha
        simp only [hlast, if_true, Except.ok.injEq, Option.some.injEq] at h
        refine .inr ⟨hlast, ?_⟩
        rw [← h]
        exact le_trans (List.length_filterMap_le _ _) (by simp [keys])
      · rename_i hlast
        simp only [if_neg hlast] at h
        cases hslot : container.slot? last with
        | error failure => simp [hslot, Except.map] at h
        | ok slot =>
          cases slot with
          | none => simp [hslot, Except.map] at h
          | some slot =>
            simp only [hslot, Except.map, Option.map_some, Except.ok.injEq,
              Option.some.injEq] at h
            rw [← h]
            cases container.writeTo slot.1 y <;> simp

/-! ## Slots that no turn has written into -/

theorem Unshared.walk (hv : v.Unshared) (hu : v.walk segments = .ok (some u)) : u.Unshared := by
  induction segments generalizing v with
  | nil =>
    obtain rfl : v = u := by simpa [Value.walk] using hu
    exact hv
  | cons segment rest ih =>
    unfold Value.walk at hu
    split at hu
    · cases hu
    · cases hu
    · rename_i k child hslot
      obtain ⟨j, _, mem⟩ := slot?_mem hslot
      exact ih (hv.child mem) hu

theorem get?_children_afterAll {k : Key} (h : ∀ w ∈ ws, v.ident? ≠ some w.target) :
    Slots.get? k (v.afterAll ws).children =
      (Slots.get? k v.children).map fun u => u.afterAll ws := by
  induction ws generalizing v with
  | nil => simp
  | cons w rest ih =>
    have hw := h w List.mem_cons_self
    have hrest : ∀ w' ∈ rest, (v.after w).ident? ≠ some w'.target := fun w' mem => by
      rw [ident?_after]
      exact h w' (List.mem_cons_of_mem _ mem)
    rw [afterAll_cons, ih hrest,
      get?_children_after fun hid => absurd hid hw, Option.map_map]
    rfl

theorem ident?_afterAll : (v.afterAll ws).ident? = v.ident? := by
  induction ws generalizing v with
  | nil => rfl
  | cons w rest ih => rw [afterAll_cons, ih, ident?_after]

/-- Writes into one branch leave the other branches of a container as they are. -/
theorem Unshared.get?_afterAll {c : Value} (hv : v.Unshared) {branch : Slot}
    (mem : branch ∈ v.children) (hws : ∀ w ∈ ws, w.target ∈ branch.2.mutables)
    (hident : c.ident? = v.ident?) {k : Key} (hk : branch.1.same k = false)
    (hsame : Slots.get? k c.children = Slots.get? k v.children) :
    Slots.get? k (c.afterAll ws).children = Slots.get? k v.children := by
  have hown : ∀ w ∈ ws, c.ident? ≠ some w.target := fun w hw hid =>
    hv.ident_not_mem (mutables_child mem (hws w hw)) (hident ▸ hid) mem
      (mutables_subset_ids (hws w hw))
  rw [get?_children_afterAll hown, hsame]
  cases hget : Slots.get? k v.children with
  | none => rfl
  | some other =>
    obtain ⟨j, hj, memOther⟩ := get?_mem hget
    have hleft : other.afterAll ws = other := by
      refine afterAll_of_not_mem fun w hw hin => ?_
      obtain rfl := hv.eq_of_mem memOther mem hin (hws w hw)
      simp [hj] at hk
    rw [Option.map_some, hleft]

end Value

namespace Run

open Value

variable {censor : Censor} {path : CompiledPath} {v : Value} {P : Workspace → Prop} {s : Workspace}

theorem stores_nil {question : Consultation} {x : Value} : path.Stores v question x [] :=
  ⟨by simp, .inl (by simp)⟩

/-- A turn: whatever is done with the answer, storing it where the path leads to keeps the
property. -/
theorem replacement_then_keeps {α : Type} {next : Value → Run α} {Q : α → Workspace → Prop}
    (h : censor.Keeps path v P) (hs : P s) (question : Consultation)
    (hnext : ∀ x t, t.root = s.root →
      (∀ ws, path.Stores v question x ws → P (written ws t)) → Ends (next x) t Q fun _ => P) :
    Ends (censor.replacement question.value question.path >>= next) s Q fun _ => P := by
  rw [ends_bind, Ends]
  cases hreplace : censor.replacement question.value question.path s with
  | error failure t => exact h.fails hs hreplace
  | ok x t =>
    refine hnext x t ?_ fun ws hws => h.stores hs hreplace hws
    rcases replacement_cases hreplace with ⟨_, rfl⟩ | ⟨f, _, _, rfl⟩ <;> rfl

theorem replaceEach_keeps {container : Value} {slots : List Slot} (h : censor.Keeps path v P)
    (halong : ∀ slot ∈ slots, ∀ x, ∀ w ∈ container.writeTo slot.1 x,
      w ∈ writesAlong (Path.strides path.segments) (fun _ => x) v) (hs : P s) :
    Ends (replaceEach censor path.text container slots) s (fun _ => P) fun _ => P := by
  induction slots generalizing s with
  | nil => exact hs
  | cons slot rest ih =>
    obtain ⟨key, u⟩ := slot
    rw [replaceEach]
    refine leaves_replacementAt (fun _ => ?_) hs
    refine replacement_then_keeps h hs ⟨u, Path.instantiate path.text key.wording⟩
      fun x t _ hstore => ?_
    rw [ends_performAll, ends_bind]
    refine ih (fun slot mem => halong slot (List.mem_cons_of_mem _ mem)) (hstore _ ⟨?_, .inl ?_⟩)
    · intro w mem
      exact halong (key, u) List.mem_cons_self x w (Option.mem_toList.mp mem)
    · cases container.writeTo key x <;> simp

/-- The branches that are still to come are as they were, since no write so far landed in them. -/
theorem replaceBelow_keeps {suffix : List String} {last : String} {source container : Value}
    {keys : List Key} (h : censor.Keeps path v P) (hsource : source.Unshared)
    (hkeyed : source.isWellKeyed = true)
    (halong : ∀ slot ∈ source.children, ∀ x,
      ∀ w ∈ writesAlong (Path.below (suffix ++ [last])) (fun _ => x) slot.2,
        w ∈ writesAlong (Path.strides path.segments) (fun _ => x) v)
    (hfills : last = Path.wildcard → path.fills = true)
    (hkeys : keys.Pairwise fun j k => j.same k = false)
    (hident : container.ident? = source.ident?)
    (hsame : ∀ k ∈ keys, Slots.get? k container.children = Slots.get? k source.children)
    (hs : P s) :
    Ends (replaceBelow censor path.text suffix last container keys) s (fun _ => P) fun _ => P := by
  induction keys generalizing s container with
  | nil => exact hs
  | cons key rest ih =>
    obtain ⟨hfirst, hrest⟩ := List.pairwise_cons.mp hkeys
    have hlater := fun k mem => hsame k (List.mem_cons_of_mem _ mem)
    rw [replaceBelow, hsame key List.mem_cons_self]
    cases hbranch : Slots.get? key source.children with
    | none => exact hs
    | some branch =>
      obtain ⟨j, hj, mem⟩ := get?_mem hbranch
      dsimp only
      cases haffected : affected? branch suffix last with
      | error failure => exact hs
      | ok found =>
        rw [ends_bind, ends_ok]
        cases found with
        | none => exact ih hrest hident hlater hs
        | some u =>
          refine leaves_replacementAt (fun _ => ?_) hs
          refine replacement_then_keeps h hs ⟨u, Path.instantiate path.text key.wording⟩
            fun x t _ hstore => ?_
          cases hover : branch.overwrite (suffix ++ [last]) x with
          | error failure => exact hstore [] stores_nil
          | ok writes =>
            rw [ends_bind, ends_ok]
            cases writes with
            | none => exact ih hrest hident hlater (hstore [] stores_nil)
            | some ws =>
              have hws := Option.some.inj (overwrite_of_affected? (everywhere_child hkeyed mem)
                haffected hover)
              dsimp only
              rw [ends_performAll, ends_bind]
              refine ih hrest (ident?_afterAll.trans hident) (fun k memKey => ?_)
                (hstore ws ⟨fun w hw => halong _ mem x w (hws ▸ hw), ?_⟩)
              · refine hsource.get?_afterAll mem (fun w hw => ?_) hident ?_ (hlater k memKey)
                · exact (mutable_of_mem_writesAlong (hws ▸ hw)).1
                · by_contra hsame
                  have := Key.same_trans (Key.same_comm j key ▸ hj) (Bool.not_eq_false _ ▸ hsame)
                  simp [hfirst k memKey] at this
              · rcases length_of_overwrite haffected hover with hlength | ⟨hlast, hlength⟩
                · exact .inl hlength
                · by_cases hone : ws.length ≤ 1
                  · exact .inl hone
                  · exact .inr ⟨hfills hlast, lt_of_lt_of_le (by lia) hlength, key, rfl⟩

theorem expand_keeps (h : censor.Keeps path s.root P) (hroot : s.root.Unshared)
    (hkeys : s.root.isWellKeyed = true) (hs : P s) :
    Ends (expand censor path.text path.segments) s (fun _ => P) fun _ => P := by
  unfold expand
  split
  · exact hs
  rename_i hwild
  have hwild : path.segments.contains Path.wildcard = true := by simpa using hwild
  rw [ends_bind, ends_root]
  cases hfound : s.root.find? (path.segments.takeWhile (· ≠ Path.wildcard)) with
  | error failure => exact hs
  | ok found =>
    rw [ends_bind, ends_ok]
    cases found with
    | none => exact hs
    | some container =>
      have hwalk := (find?_eq_some.mp hfound).1
      have halong : ∀ x, writesAlong (Path.strides path.segments) (fun _ => x) s.root =
          writesAlong (.every :: Path.below
            ((path.segments.dropWhile (· ≠ Path.wildcard)).drop 1)) (fun _ => x) container := by
        intro x
        rw [Path.strides_of_wildcard hwild, writesAlong_walk hkeys hwalk]
      dsimp only
      rcases List.eq_nil_or_concat' ((path.segments.dropWhile (· ≠ Path.wildcard)).drop 1) with
        hrest | ⟨suffix, last, hrest⟩
      · rw [hrest] at halong ⊢
        simp only [List.getLast?_nil]
        split
        · refine replaceEach_keeps h (fun slot mem x w hw => ?_) hs
          rw [halong]
          exact List.mem_filterMap.mpr ⟨slot, mem, hw⟩
        · exact hs
      · have hfills : last = Path.wildcard → path.fills = true := by
          rintro rfl
          rw [CompiledPath.fills, hrest, List.getLast?_concat]
          exact beq_self_eq_true _
        rw [hrest] at halong ⊢
        simp only [List.getLast?_concat, List.dropLast_concat]
        refine replaceBelow_keeps h (hroot.walk hwalk) (everywhere_walk hkeys hwalk)
          (fun slot mem x w hw => ?_) hfills
          (Slots.distinct_iff.mp (distinct_children (everywhere_walk hkeys hwalk))) rfl
          (fun _ _ => rfl) hs
        obtain ⟨next, rest, hbelow⟩ : ∃ next rest,
            Path.below (suffix ++ [last]) = next :: rest := by
          rw [Path.below_concat]
          cases suffix <;> exact ⟨_, _, rfl⟩
        rw [halong, hbelow]
        rw [hbelow] at hw
        exact List.mem_flatMap.mpr ⟨slot, mem, hw⟩

theorem replaceAt_keeps (h : censor.Keeps path s.root P) (hkeys : s.root.isWellKeyed = true)
    (hwild : path.hasWildcard = false) (hs : P s) :
    Ends (replaceAt censor path.text path.segments) s (fun _ => P) fun _ => P := by
  unfold replaceAt
  rw [ends_bind, ends_root]
  cases hfound : s.root.find? path.segments with
  | error failure => exact hs
  | ok found =>
    rw [ends_bind, ends_ok]
    cases found with
    | none => exact hs
    | some u =>
      refine replacement_then_keeps h hs ⟨u, path.text⟩ fun x t hroot hstore => ?_
      rw [ends_bind, ends_root, hroot]
      cases hover : s.root.overwrite path.segments x with
      | error failure => exact hstore [] stores_nil
      | ok writes =>
        rw [ends_bind, ends_ok]
        cases writes with
        | none => exact hstore [] stores_nil
        | some ws =>
          dsimp only
          rw [ends_performAll]
          refine hstore ws ?_
          rcases List.eq_nil_or_concat' path.segments with hnil | ⟨suffix, last, hconcat⟩
          · simp [hnil, overwrite] at hover
          have hlast : last ≠ Path.wildcard := by
            rintro rfl
            simp [CompiledPath.hasWildcard, hconcat] at hwild
          have hstrides : Path.strides path.segments = Path.below (suffix ++ [last]) := by
            rw [Path.strides_of_no_wildcard hwild, hconcat, Path.below_concat, if_neg hlast,
              List.map_append]
            rfl
          rw [hconcat] at hfound hover
          have haffected := affected?_of_overwrite hlast hfound hover
          have hws := Option.some.inj (overwrite_of_affected? hkeys haffected hover)
          refine ⟨fun w hw => by rw [hstrides]; exact hws ▸ hw, ?_⟩
          exact (length_of_overwrite haffected hover).imp_right fun hfill => absurd hfill.1 hlast

end Run

/-- What asking and storing keep is kept by a path, whether it succeeds or fails. -/
theorem Engine.applyPath_keeps {censor : Censor} {path : CompiledPath} {P : Workspace → Prop}
    {s : Workspace} (h : censor.Keeps path s.root P) (hroot : s.root.Unshared)
    (hkeys : s.root.isWellKeyed = true) (hs : P s) :
    Run.Ends (applyPath censor path) s (fun _ => P) fun _ => P := by
  unfold applyPath
  split
  · exact Run.expand_keeps h hroot hkeys hs
  · rename_i hwild
    exact Run.replaceAt_keeps h hkeys (by simpa using hwild) hs

end Redaction
