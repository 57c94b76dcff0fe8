import Redaction.Proofs.Simultaneity

/-!
# Another value in one slot

Two values that differ only in what one slot holds. Redacting both along the same paths makes them
equal as soon as a path addresses that slot or one around it; until then they go on to differ in
that slot only. What the slot holds may be of any kind, except that the marker for nothing found is
no value.
-/

namespace Redaction

namespace Value

def at? : List Key → Value → Option Value
  | [], v => some v
  | k :: rest, v => (Slots.get? k v.children).bind fun child => child.at? rest

/-- The value with `y` in the slot at a position, if there is one. -/
def setAt : Value → List Key → Value → Value
  | _, [], y => y
  | v, k :: rest, y =>
    v.withSlots fun j child => some (if j.same k then child.setAt rest y else child)

/-- Beside what stands at the position, which is there in both if in one, the values are the same.
The marker for nothing found stands there in neither. -/
def DifferAt (position : List Key) (v v' : Value) : Prop :=
  (∀ old ∈ v.at? position, old.isMissing = false) ∧
    ∃ y, y.isMissing = false ∧ v' = v.setAt position y

section

variable {v child u : Value} {k j : Key} {rest : List Key} {strides : List Stride}
  {stride next : Stride} {more : List Stride} {x : Option Key → Value}

theorem isMissing_redactAlong : (v.redactAlong strides x).isMissing = v.isMissing := by
  match strides with
  | [] => rfl
  | [stride] => exact isMissing_withSlots
  | stride :: next :: more => exact isMissing_withSlots

theorem isWellKeyed_redactAlong (hx : ∀ l, (x l).kind.isTraversable = false)
    (h : v.isWellKeyed = true) : (v.redactAlong strides x).isWellKeyed = true :=
  everywhere_redactAlong hx (fun _ _ => keysDiffer_withSlots) h

theorem setAt_of_no_slot {y : Value} (h : ∀ slot ∈ v.children, slot.1.same k = false) :
    v.setAt (k :: rest) y = v := by
  refine Eq.trans (withSlots_congr fun slot mem => ?_) withSlots_self
  simp [h slot mem]

def putAt (k : Key) (u v : Value) : Value :=
  v.withSlots fun j child => some (if j.same k then u else child)

theorem putAt_congr {f : Key → Value → Option Value} (hkeys : Slots.Distinct v.children)
    (mem : (j, child) ∈ v.children) (hj : j.same k = true) (hf : f j child = some u)
    (hother : ∀ slot ∈ v.children, slot.1.same k = false → f slot.1 slot.2 = some slot.2) :
    v.withSlots f = putAt k u v := by
  refine withSlots_congr fun slot memSlot => ?_
  by_cases hs : slot.1.same k = true
  · have hsame : slot.1.same j = true := Key.same_trans hs (Key.same_comm _ _ ▸ hj)
    obtain rfl := Slots.eq_of_same hkeys memSlot mem hsame
    simp [hs, hf]
  · have hs : slot.1.same k = false := by simpa using hs
    simp [hs, hother slot memSlot hs]

theorem setAt_cons {y : Value} (hkeys : Slots.Distinct v.children) (mem : (j, child) ∈ v.children)
    (hj : j.same k = true) : v.setAt (k :: rest) y = putAt k (child.setAt rest y) v :=
  putAt_congr hkeys mem hj (by simp [hj]) fun slot _ hs => by simp [hs]

theorem children_putAt (k : Key) (u v : Value) : (putAt k u v).children =
    v.children.map fun slot => (slot.1, if slot.1.same k then u else slot.2) := by
  rw [putAt, children_withSlots, ← List.filterMap_eq_map]
  rfl

theorem finds?_putAt (hkeys : Slots.Distinct v.children) (mem : (j, child) ∈ v.children)
    (hj : j.same k = true) (hmissing : u.isMissing = child.isMissing) (i : Key) :
    stride.finds? (putAt k u v) i = stride.finds? v i := by
  refine Stride.finds?_map (by rw [putAt, kind_withSlots]) (children_putAt k u v)
    (fun slot memSlot => ?_) i
  by_cases hs : slot.1.same k = true
  · have hsame : slot.1.same j = true := Key.same_trans hs (Key.same_comm _ _ ▸ hj)
    obtain rfl := Slots.eq_of_same hkeys memSlot mem hsame
    simp [hs, hmissing]
  · simp [hs]

theorem leads_congr (h : j.same k = true) : stride.leads v j = stride.leads v k := by
  cases stride with
  | every => rfl
  | named segment =>
    rw [Bool.eq_iff_iff, Stride.leads, Stride.leads, Option.isSome_iff_exists,
      Option.isSome_iff_exists]
    refine exists_congr fun found => ?_
    rw [Stride.finds?_named, Stride.finds?_named]
    refine exists_congr fun w => and_congr_right fun _ => and_congr_left fun _ => ?_
    exact ⟨fun hf => Key.same_trans hf h,
      fun hf => Key.same_trans hf (Key.same_comm j k ▸ h)⟩

/-- What a first stride does to the slots of a value, and those after it to what they hold. -/
def strideInto (v : Value) (stride : Stride) (more : List Stride) (x : Option Key → Value) (k : Key)
    (child : Value) : Option Value :=
  match more with
  | [] => if stride.leads v k then settled v.kind (stride.pick x k none) else some child
  | next :: rest =>
    some (if stride.leads v k then child.redactAlong (next :: rest) (stride.pick x k) else child)

theorem redactAlong_cons :
    v.redactAlong (stride :: more) x = v.withSlots (v.strideInto stride more x) := by
  cases more <;> rfl

theorem redactAlong_putAt (hkeys : Slots.Distinct v.children) (mem : (j, child) ∈ v.children)
    (hj : j.same k = true) (hmissing : u.isMissing = child.isMissing) :
    (putAt k u v).redactAlong (stride :: more) x =
      (putAt k u v).withSlots (v.strideInto stride more x) := by
  have hleads : ∀ i, stride.leads (putAt k u v) i = stride.leads v i := fun i => by
    rw [Stride.leads, finds?_putAt hkeys mem hj hmissing, Stride.leads]
  have hkind : (putAt k u v).kind = v.kind := by rw [putAt, kind_withSlots]
  rw [redactAlong_cons]
  refine withSlots_congr fun slot _ => ?_
  cases more <;> simp only [strideInto, hleads, hkind]

/-- What is put in a slot does not show where the slot is replaced by the same. -/
theorem withSlots_putAt_same {f : Key → Value → Option Value} (hkeys : Slots.Distinct v.children)
    (mem : (j, child) ∈ v.children) (hj : j.same k = true) (hf : f j u = f j child) :
    (putAt k u v).withSlots f = v.withSlots f := by
  rw [putAt, withSlots_withSlots]
  refine withSlots_congr fun slot memSlot => ?_
  rw [Option.bind_some]
  by_cases hs : slot.1.same k = true
  · have hsame : slot.1.same j = true := Key.same_trans hs (Key.same_comm _ _ ▸ hj)
    obtain rfl := Slots.eq_of_same hkeys memSlot mem hsame
    rw [if_pos hs, hf]
  · rw [if_neg hs]

theorem withSlots_putAt {f : Key → Value → Option Value} {w w' : Value}
    (hkeys : Slots.Distinct v.children) (mem : (j, child) ∈ v.children) (hj : j.same k = true)
    (hw : f j child = some w) (hw' : f j u = some w') :
    (putAt k u v).withSlots f = putAt k w' (v.withSlots f) := by
  rw [putAt, putAt, withSlots_withSlots, withSlots_withSlots]
  refine withSlots_congr fun slot memSlot => ?_
  rw [Option.bind_some]
  by_cases hs : slot.1.same k = true
  · have hsame : slot.1.same j = true := Key.same_trans hs (Key.same_comm _ _ ▸ hj)
    obtain rfl := Slots.eq_of_same hkeys memSlot mem hsame
    simp only [hs, if_true, hw, hw', Option.bind_some]
  · have hs : slot.1.same k = false := by simpa using hs
    simp only [hs, Bool.false_eq_true, if_false, Option.bind_fun_some]

theorem DifferAt.put {f : Key → Value → Option Value} {w w' : Value}
    (hkeys : Slots.Distinct v.children) (mem : (j, child) ∈ v.children) (hj : j.same k = true)
    (hw : f j child = some w) (h : DifferAt rest w w') :
    DifferAt (k :: rest) (v.withSlots f) (putAt k w' (v.withSlots f)) := by
  obtain ⟨hold, y, hy, rfl⟩ := h
  have hkeys' : Slots.Distinct (v.withSlots f).children := by
    rw [children_withSlots]
    exact hkeys.filterMap f
  have hmem : (j, w) ∈ (v.withSlots f).children := by
    rw [children_withSlots]
    exact List.mem_filterMap.mpr ⟨(j, child), mem, by rw [hw]; rfl⟩
  refine ⟨fun old hat => hold old ?_, y, hy, (setAt_cons hkeys' hmem hj).symm⟩
  rw [at?, get?_withSlots hkeys mem hw hj] at hat
  exact hat

theorem addresses_of_not_leads (h : stride.leads v k = false) :
    v.addresses (stride :: more) (k :: rest) = false := by
  cases more <;> cases rest <;> simp [addresses, h]

theorem differAt_of_not_leads (hkeys : Slots.Distinct v.children) (mem : (j, child) ∈ v.children)
    (hj : j.same k = true) (hl : stride.leads v j = false) (h : DifferAt rest child u) :
    DifferAt (k :: rest) (v.withSlots (v.strideInto stride more x))
      ((putAt k u v).withSlots (v.strideInto stride more x)) := by
  have hinto : ∀ w, v.strideInto stride more x j w = some w := fun w => by
    cases more <;> simp [strideInto, hl]
  rw [withSlots_putAt hkeys mem hj (hinto child) (hinto u)]
  exact h.put hkeys mem hj (hinto child)

/-- Two values that differ in one slot differ in that slot only after they were redacted along the
same strides, or are equal then. They are equal if the strides lead to the slot. -/
theorem redactAlong_differAt {position : List Key} {v' : Value} (hkeys : v.isWellKeyed = true)
    (h : DifferAt position v v') :
    v.redactAlong strides x = v'.redactAlong strides x ∨
      DifferAt position (v.redactAlong strides x) (v'.redactAlong strides x) ∧
        v.addresses strides position = false := by
  induction position generalizing v v' strides x with
  | nil =>
    obtain ⟨hold, y, hy, hv'⟩ := h
    obtain rfl : v' = y := hv'
    refine .inr ⟨⟨fun old hat => ?_, v'.redactAlong strides x, ?_, rfl⟩, addresses_root v⟩
    · obtain rfl := Option.some.inj hat
      rw [isMissing_redactAlong]
      exact hold v rfl
    · rw [isMissing_redactAlong]
      exact hy
  | cons k rest ih =>
    have hdistinct := distinct_children hkeys
    by_cases hslot : ∃ slot ∈ v.children, slot.1.same k = true
    swap
    · obtain ⟨_, y, _, rfl⟩ := h
      rw [setAt_of_no_slot fun slot mem => by simpa using fun hs => hslot ⟨slot, mem, hs⟩]
      exact .inl rfl
    obtain ⟨⟨j, child⟩, mem, hj⟩ := hslot
    cases strides with
    | nil => exact .inr ⟨h, addresses_nil v⟩
    | cons stride more =>
      obtain ⟨hold, y, hy, rfl⟩ := h
      have hat : v.at? (k :: rest) = child.at? rest := by
        rw [at?, Slots.get?_of_mem hdistinct mem hj]
        rfl
      rw [hat] at hold
      have hchild : DifferAt rest child (child.setAt rest y) := ⟨hold, y, hy, rfl⟩
      have hmissing : (child.setAt rest y).isMissing = child.isMissing := by
        cases rest with
        | nil => rw [hold child rfl, setAt, hy]
        | cons i others => exact isMissing_withSlots
      have hlead : stride.leads v k = stride.leads v j := (leads_congr hj).symm
      rw [setAt_cons hdistinct mem hj, redactAlong_putAt hdistinct mem hj hmissing,
        redactAlong_cons]
      by_cases hl : stride.leads v j = true
      · cases more with
        | nil =>
          rw [withSlots_putAt_same hdistinct mem hj (by simp [strideInto, hl])]
          exact .inl rfl
        | cons next others =>
          have hinto : ∀ u, v.strideInto stride (next :: others) x j u =
              some (u.redactAlong (next :: others) (stride.pick x j)) := fun u => by
            simp [strideInto, hl]
          rcases @ih child (next :: others) (stride.pick x j) _ (everywhere_child hkeys mem) hchild
            with heq | ⟨hdiffer, haddress⟩
          · rw [withSlots_putAt_same hdistinct mem hj (by rw [hinto, hinto, heq])]
            exact .inl rfl
          · rw [withSlots_putAt hdistinct mem hj (hinto child) (hinto _)]
            refine .inr ⟨hdiffer.put hdistinct mem hj (hinto child), ?_⟩
            simp [addresses, Slots.get?_of_mem hdistinct mem hj, haddress]
      · have hl : stride.leads v j = false := by simpa using hl
        exact .inr ⟨differAt_of_not_leads hdistinct mem hj hl hchild,
          addresses_of_not_leads (hlead.trans hl)⟩

end

/-- The same for several paths, one after another: the values end up equal if any of the paths
leads to the slot in what those before it have left. -/
theorem redactAll_differAt {answer : String → Value} {paths : List CompiledPath} {v v' : Value}
    {position : List Key} (hx : ∀ text, (answer text).kind.isTraversable = false)
    (hkeys : v.isWellKeyed = true) (h : DifferAt position v v') :
    v.redactAll answer paths = v'.redactAll answer paths ∨
      ∀ done path rest, paths = done ++ path :: rest →
        (v.redactAll answer done).addresses (Path.strides path.segments) position = false := by
  induction paths generalizing v v' with
  | nil => exact .inr fun done path rest heq => by simp at heq
  | cons first others ih =>
    rw [redactAll_cons, redactAll_cons]
    rcases @redactAlong_differAt v (Path.strides first.segments)
      (Censor.answersAt answer first.text) position v' hkeys h with heq | ⟨hdiffer, haddress⟩
    · rw [heq]
      exact .inl rfl
    · have hx' := answersAt_not_traversable hx first.text
      refine (ih (isWellKeyed_redactAlong hx' hkeys) hdiffer).imp_right fun hlater => ?_
      intro done path rest heq
      cases done with
      | nil =>
        obtain ⟨rfl, _⟩ := List.cons.inj heq
        exact haddress
      | cons before done =>
        obtain ⟨rfl, hothers⟩ := List.cons.inj heq
        exact hlater done path rest hothers

/-! ## Positions -/

section

variable {v u : Value} {k : Key} {position : List Key} {stride : Stride} {strides : List Stride}

theorem at?_cons (hkeys : Slots.Distinct v.children) {child : Value} (mem : (k, child) ∈ v.children)
    {j : Key} (hk : k.same j = true) : v.at? (j :: position) = child.at? position := by
  rw [at?, Slots.get?_of_mem hkeys mem hk]
  rfl

theorem get?_congr {j k : Key} (h : j.same k = true) (slots : List Slot) :
    Slots.get? j slots = Slots.get? k slots := by
  induction slots with
  | nil => rfl
  | cons slot rest ih =>
    have hsame : slot.1.same j = slot.1.same k := by
      rw [Bool.eq_iff_iff]
      exact ⟨fun hs => Key.same_trans hs h, fun hs => Key.same_trans hs (Key.same_comm j k ▸ h)⟩
    obtain ⟨name, u⟩ := slot
    simp only [Slots.get?, hsame, ih]

/-- Positions are the same if their keys are, one by one. -/
abbrev Same (position other : List Key) : Prop :=
  List.Forall₂ (fun j k => j.same k = true) position other

theorem addresses_congr {other : List Key} (h : Same position other) :
    v.addresses strides position = v.addresses strides other := by
  induction h generalizing strides v with
  | nil => rfl
  | @cons j k position other hjk hrest ih =>
    match strides with
    | [] => rw [addresses_nil, addresses_nil]
    | [stride] =>
      cases hrest with
      | nil => exact leads_congr hjk
      | cons _ _ => rw [addresses_last, addresses_last]
    | stride :: next :: rest =>
      have hbelow : (fun child : Value => child.addresses (next :: rest) position) =
          fun child => child.addresses (next :: rest) other := by
        funext child
        exact ih
      simp only [addresses, leads_congr hjk, get?_congr hjk, hbelow]

theorem at?_likeness (thaw : Bool) (v : Value) (position : List Key) :
    (v.likeness thaw).at? position = (v.at? position).map fun u => u.likeness thaw := by
  induction position generalizing v with
  | nil => rfl
  | cons k rest ih =>
    rw [at?, at?, children_likeness, Slots.get?_map]
    cases Slots.get? k v.children with
    | none => rfl
    | some child => exact ih child

theorem likeness_setAt (thaw : Bool) (v y : Value) (position : List Key) :
    (v.setAt position y).likeness thaw = (v.likeness thaw).setAt position (y.likeness thaw) := by
  induction position generalizing v with
  | nil => rfl
  | cons k rest ih =>
    refine likeness_withSlots fun slot _ => ?_
    by_cases hk : slot.1.same k = true
    · simp [hk, ih]
    · simp [hk]

theorem kind_setAt {y : Value} {k : Key} : (v.setAt (k :: position) y).kind = v.kind :=
  kind_withSlots

theorem differAt_thawed {y : Value} (hold : ∀ old ∈ v.at? position, old.isMissing = false)
    (hy : y.isMissing = false) :
    DifferAt position v.thawed (v.setAt position y).thawed := by
  refine ⟨fun old hat => ?_, y.thawed, ?_, likeness_setAt true v y position⟩
  · rw [thawed, at?_likeness] at hat
    obtain ⟨u, hu, rfl⟩ := Option.map_eq_some_iff.mp hat
    rw [isMissing_likeness]
    exact hold u hu
  · rw [thawed, isMissing_likeness]
    exact hy

end

end Value

end Redaction
