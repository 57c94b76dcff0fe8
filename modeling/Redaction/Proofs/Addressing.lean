import Redaction.Expansion
import Redaction.Proofs.Likeness

/-!
# Where paths lead

The segments of a path, taken as strides: each leads from a container into some of its slots. The
slots that a path addresses are those at the end of all ways along its strides. Here this is a
matter of trees alone: `Value.redactAlong` replaces what one path addresses, slot by slot, and
`Value.filled` fills a set of slots at once, the outermost ones first. Identities play no part.
-/

namespace Redaction

/-- One stride of a path: into the slot that a segment names, or into every slot. -/
inductive Stride where
  | named (segment : String)
  | every
deriving Repr, DecidableEq

namespace Path

/-- The strides below the first wildcard. There only a wildcard at the very end leads into every
slot; any other stands for a key of that text. -/
def below : List String → List Stride
  | [] => []
  | [last] => [if last = wildcard then .every else .named last]
  | segment :: next :: rest => .named segment :: below (next :: rest)

def strides : List String → List Stride
  | [] => []
  | segment :: rest =>
    if segment = wildcard then .every :: below rest else .named segment :: strides rest

theorem below_concat (segments : List String) (last : String) :
    below (segments ++ [last]) =
      segments.map .named ++ [if last = wildcard then .every else .named last] := by
  induction segments with
  | nil => rfl
  | cons segment rest ih =>
    cases rest with
    | nil => rfl
    | cons next rest =>
      simp only [List.map_cons, List.cons_append] at ih ⊢
      rw [← ih]
      rfl

theorem strides_of_no_wildcard {segments : List String}
    (h : segments.contains wildcard = false) : strides segments = segments.map .named := by
  induction segments with
  | nil => rfl
  | cons segment rest ih =>
    simp only [List.contains_cons, Bool.or_eq_false_iff, beq_eq_false_iff_ne] at h
    rw [strides, if_neg (Ne.symm h.1), ih h.2, List.map_cons]

theorem strides_of_wildcard {segments : List String} (h : segments.contains wildcard = true) :
    strides segments = (segments.takeWhile (· ≠ wildcard)).map .named ++
      .every :: below ((segments.dropWhile (· ≠ wildcard)).drop 1) := by
  induction segments with
  | nil => simp at h
  | cons segment rest ih =>
    by_cases hs : segment = wildcard
    · simp [strides, hs]
    · have hrest : rest.contains wildcard = true := by
        simpa [List.contains_cons, Ne.symm hs] using h
      rw [strides, if_neg hs, ih hrest]
      simp [hs]

end Path

namespace Stride

/-- The key by which a stride finds the slot of `k` in a value. A slot that holds the marker for
nothing found is not found by name. -/
def finds? (stride : Stride) (v : Value) (k : Key) : Option Key :=
  match stride with
  | every => some k
  | named segment =>
    match v.slot? segment with
    | .ok (some (found, child)) => if found.same k && !child.isMissing then some found else none
    | _ => none

/-- A stride leads from a value into the slot of `k`. -/
def leads (stride : Stride) (v : Value) (k : Key) : Bool := (stride.finds? v k).isSome

/-- Replacements are chosen by the key that the first wildcard of a path stands for. This is the
choice that is left once a stride has led into the slot of `k`. -/
def pick (stride : Stride) (x : Option Key → Value) (k : Key) : Option Key → Value :=
  match stride with
  | named _ => x
  | every => fun _ => x (some k)

theorem pick_const (stride : Stride) (c : Value) (k : Key) :
    stride.pick (fun _ => c) k = fun _ => c := by
  cases stride <;> rfl

theorem pick_mem (stride : Stride) (x : Option Key → Value) (k : Key) (l : Option Key) :
    ∃ j, stride.pick x k l = x j := by
  cases stride with
  | named segment => exact ⟨l, rfl⟩
  | every => exact ⟨some k, rfl⟩

end Stride

namespace Slots

def Distinct (slots : List Slot) : Prop := slots.Pairwise fun a b => a.1.same b.1 = false

instance (slots : List Slot) : Decidable (Distinct slots) :=
  inferInstanceAs (Decidable (slots.Pairwise _))

variable {slots : List Slot}

/-- A slot after storing has the key and the value that were stored, or that it had. -/
theorem forall_put {P : Key → Prop} {Q : Value → Prop} {k : Key} {v : Value} (hk : P k)
    (hv : Q v) (h : ∀ slot ∈ slots, P slot.1 ∧ Q slot.2) :
    ∀ slot ∈ put k v slots, P slot.1 ∧ Q slot.2 := by
  induction slots with
  | nil => simpa [put] using ⟨hk, hv⟩
  | cons slot rest ih =>
    obtain ⟨hslot, hrest⟩ := List.forall_mem_cons.mp h
    by_cases hsame : slot.1.same k = true
    · simpa [put, hsame] using ⟨⟨hslot.1, hv⟩, fun j u mem => hrest (j, u) mem⟩
    · simp only [put, hsame]
      exact List.forall_mem_cons.mpr ⟨hslot, ih hrest⟩

theorem get?_of_mem (h : Distinct slots) {j k : Key} {v : Value} (mem : (k, v) ∈ slots)
    (hk : k.same j = true) : get? j slots = some v := by
  induction slots with
  | nil => simp at mem
  | cons slot rest ih =>
    obtain ⟨hfirst, hrest⟩ := List.pairwise_cons.mp h
    obtain ⟨name, u⟩ := slot
    rcases List.mem_cons.mp mem with heq | mem
    · obtain ⟨rfl, rfl⟩ := Prod.mk.inj heq
      simp [get?, hk]
    · have hname : name.same j = false := by
        by_contra hsame
        have hkj := Key.same_comm k j ▸ hk
        have := Key.same_trans (Bool.not_eq_false _ ▸ hsame) hkj
        simp [hfirst _ mem] at this
      simp only [get?, hname, Bool.false_eq_true, if_false]
      exact ih hrest mem

theorem eq_of_same (h : Distinct slots) {a b : Slot} (ha : a ∈ slots) (hb : b ∈ slots)
    (hsame : a.1.same b.1 = true) : a = b := by
  induction slots with
  | nil => simp at ha
  | cons slot rest ih =>
    obtain ⟨hfirst, hrest⟩ := List.pairwise_cons.mp h
    rcases List.mem_cons.mp ha with ha | ha <;> rcases List.mem_cons.mp hb with hb | hb
    · rw [ha, hb]
    · rw [ha, hfirst b hb] at hsame
      simp at hsame
    · rw [hb, Key.same_comm, hfirst a ha] at hsame
      simp at hsame
    · exact ih hrest ha hb

theorem isSome_get?_congr {others : List Slot} (h : others.map Prod.fst = slots.map Prod.fst)
    (j : Key) : (get? j others).isSome = (get? j slots).isSome := by
  induction others generalizing slots with
  | nil =>
    obtain rfl : slots = [] := by simpa using h.symm
    rfl
  | cons other rest ih =>
    cases slots with
    | nil => simp at h
    | cons slot more =>
      obtain ⟨hhead, htail⟩ := List.cons.inj h
      obtain ⟨name, v⟩ := other
      obtain rfl : name = slot.1 := hhead
      by_cases hj : slot.1.same j = true <;> simp [get?, hj, ih htail]

theorem get?_eq_none {j : Key} : get? j slots = none ↔ ∀ slot ∈ slots, slot.1.same j = false := by
  induction slots with
  | nil => simp [get?]
  | cons slot rest ih =>
    obtain ⟨name, u⟩ := slot
    by_cases hk : name.same j = true
    · simp [get?, hk]
    · simp [get?, hk, ih]

section

variable {k : Key} {v : Value} {pairs : List Slot}

theorem forall_ofPairs {P : Key → Prop} {Q : Value → Prop}
    (h : ∀ slot ∈ pairs, P slot.1 ∧ Q slot.2) : ∀ slot ∈ ofPairs pairs, P slot.1 ∧ Q slot.2 := by
  have hfold : ∀ slots : List Slot, (∀ slot ∈ slots, P slot.1 ∧ Q slot.2) →
      ∀ slot ∈ pairs.foldl (fun slots slot => put slot.1 slot.2 slots) slots,
        P slot.1 ∧ Q slot.2 := by
    induction pairs with
    | nil => exact fun slots hslots => hslots
    | cons pair rest ih =>
      obtain ⟨hpair, hrest⟩ := List.forall_mem_cons.mp h
      exact fun slots hslots => ih hrest _ (forall_put hpair.1 hpair.2 hslots)
  exact hfold [] (by simp)

theorem put_of_not_same (h : ∀ slot ∈ slots, slot.1.same k = false) :
    put k v slots = slots ++ [(k, v)] := by
  induction slots with
  | nil => rfl
  | cons slot rest ih =>
    obtain ⟨hslot, hrest⟩ := List.forall_mem_cons.mp h
    simp [put, hslot, ih hrest]

theorem ofPairs_of_distinct (h : Distinct pairs) : ofPairs pairs = pairs := by
  have hfold : ∀ slots : List Slot, Distinct (slots ++ pairs) →
      pairs.foldl (fun slots slot => put slot.1 slot.2 slots) slots = slots ++ pairs := by
    clear h
    induction pairs with
    | nil => simp
    | cons pair rest ih =>
      intro slots hslots
      have hpair : ∀ slot ∈ slots, slot.1.same pair.1 = false := fun slot mem =>
        (List.pairwise_append.mp hslots).2.2 slot mem pair List.mem_cons_self
      rw [List.foldl_cons, put_of_not_same hpair, ih _ (by simpa using hslots), List.append_assoc]
      rfl
  exact hfold [] h

end

theorem Distinct.filterMap (h : Distinct slots) (f : Key → Value → Option Value) :
    Distinct (slots.filterMap fun slot => (f slot.1 slot.2).map fun u => (slot.1, u)) := by
  refine List.Pairwise.filterMap _ (fun a b hab a' ha' b' hb' => ?_) h
  obtain ⟨_, _, rfl⟩ := Option.map_eq_some_iff.mp ha'
  obtain ⟨_, _, rfl⟩ := Option.map_eq_some_iff.mp hb'
  exact hab

end Slots

theorem Key.eq_text_of_same {k : Key} {s : String} (h : k.same (.text s) = true) :
    k = .text s := by
  simp only [Key.same, Key.text, Key.tokens, decide_eq_true_eq] at h
  cases k with
  | atom a =>
    simp only [Key.tokens, List.cons.injEq, and_true] at h
    cases a with
    | text t =>
      obtain rfl := Token.text.inj h
      rfl
    | binary x => cases x <;> simp [Atom.token, Atom.binaryToken] at h
    | decimal x => cases x <;> simp [Atom.token, Atom.decimalToken] at h
    | _ => simp [Atom.token] at h
  | tuple form items => simp [Key.tokens, Atom.token] at h
  | frozen item => simp [Key.tokens, Atom.token] at h

namespace Value

/-- The value with each slot that paths lead to changed by `f`, or taken out. -/
def withSlots (f : Key → Value → Option Value) : Value → Value
  | scalar s => scalar s
  | node id shape tag snapshot slots =>
    node id shape tag snapshot (if shape.kind.isTraversable then
      slots.filterMap fun slot => (f slot.1 slot.2).map fun v => (slot.1, v) else slots)

/-- The value once all that strides lead to is replaced. -/
def redactAlong : List Stride → (Option Key → Value) → Value → Value
  | [], _, v => v
  | [stride], x, v => v.withSlots fun k child =>
    if stride.leads v k then settled v.kind (stride.pick x k none) else some child
  | stride :: next :: rest, x, v => v.withSlots fun k child =>
    some (if stride.leads v k then redactAlong (next :: rest) (stride.pick x k) child else child)

/-- Strides lead from a value to the slot at a position, given by the keys on the way. -/
def addresses : List Stride → Value → List Key → Bool
  | [stride], v, [k] => stride.leads v k
  | stride :: rest, v, k :: position => stride.leads v k &&
    (Slots.get? k v.children).any fun child => addresses rest child position
  | _, _, _ => false

mutual

/-- The value in which every outermost one of the chosen slots holds `c`. Slots are given by their
positions. -/
def filled : Value → Value → (List Key → Bool) → Value
  | scalar s, _, _ => scalar s
  | node id shape tag snapshot slots, c, chosen =>
    node id shape tag snapshot
      (if shape.kind.isTraversable then filledSlots shape.kind slots c chosen else slots)

/-- Slots of a container of the given kind, of which the chosen ones hold `c`. -/
def filledSlots (kind : Kind) :
    List (Key × Value) → Value → (List Key → Bool) → List (Key × Value)
  | [], _, _ => []
  | (k, v) :: rest, c, chosen =>
    let others := filledSlots kind rest c chosen
    if chosen [k] then
      match settled kind c with
      | some x => (k, x) :: others
      | none => others
    else (k, v.filled c fun position => chosen (k :: position)) :: others

end

/-! ## Changed slots -/

section

variable {f g : Key → Value → Option Value} {v : Value}

@[simp] theorem kind_withSlots : (v.withSlots f).kind = v.kind := by
  cases v <;> rfl

theorem withSlots_of_not_traversable (h : v.kind.isTraversable = false) : v.withSlots f = v := by
  cases v with
  | scalar s => rfl
  | node id shape tag snapshot slots =>
    simp only [kind] at h
    simp [withSlots, h]

theorem children_withSlots : (v.withSlots f).children =
    v.children.filterMap fun slot => (f slot.1 slot.2).map fun u => (slot.1, u) := by
  cases v with
  | scalar s => simp [withSlots, children_scalar]
  | node id shape tag snapshot slots =>
    by_cases ht : shape.kind.isTraversable = true
    · rw [withSlots, if_pos ht, children_node ht, children_node ht]
    · simp [withSlots, children, kind, ht]

theorem withSlots_congr (h : ∀ slot ∈ v.children, f slot.1 slot.2 = g slot.1 slot.2) :
    v.withSlots f = v.withSlots g := by
  cases v with
  | scalar s => rfl
  | node id shape tag snapshot slots =>
    by_cases ht : shape.kind.isTraversable = true
    · rw [children_node ht] at h
      have hslots : (slots.filterMap fun slot => (f slot.1 slot.2).map fun u => (slot.1, u)) =
          slots.filterMap fun slot => (g slot.1 slot.2).map fun u => (slot.1, u) :=
        List.filterMap_congr fun slot mem => by rw [h slot mem]
      simp only [withSlots, ht, if_true, hslots]
    · simp [withSlots, ht]

/-- Changing slots twice changes them once, by the one function after the other. -/
theorem withSlots_withSlots :
    (v.withSlots f).withSlots g = v.withSlots fun k child => (f k child).bind (g k) := by
  cases v with
  | scalar s => rfl
  | node id shape tag snapshot slots =>
    by_cases ht : shape.kind.isTraversable = true
    · simp only [withSlots, ht, if_true, List.filterMap_filterMap]
      congr 1
      refine List.filterMap_congr fun slot _ => ?_
      cases f slot.1 slot.2 <;> rfl
    · simp [withSlots, ht]

theorem withSlots_self : v.withSlots (fun _ child => some child) = v := by
  cases v with
  | scalar s => rfl
  | node id shape tag snapshot slots =>
    have hslots : (slots.filterMap fun slot => (some slot.2).map fun u => (slot.1, u)) = slots :=
      (List.filterMap_congr fun slot _ => rfl).trans List.filterMap_some
    simp only [withSlots, hslots, ite_self]

end

theorem isTraversable_settled {kind : Kind} {x y : Value} (hx : x.kind.isTraversable = false)
    (h : y ∈ settled kind x) : y.kind.isTraversable = false := by
  unfold settled at h
  split at h
  · split at h
    · simp at h
    · obtain rfl := Option.some.inj h
      rfl
  · obtain rfl := Option.some.inj h
    exact hx

/-- A relation between values that holds of a value and itself, and of a value and what it becomes
when the values in its slots are related or replaced, holds of a value and its redaction. -/
theorem redactAlong_induction (R : Value → Prop) (P : Value → Value → Prop) (hself : ∀ v, P v v)
    (hstep : ∀ v f, (∀ slot ∈ v.children, ∀ u ∈ f slot.1 slot.2,
      P slot.2 u ∨ ∃ y kind, R y ∧ u ∈ settled kind y) → P v (v.withSlots f))
    {strides : List Stride} {x : Option Key → Value} {v : Value} (hx : ∀ l, R (x l)) :
    P v (v.redactAlong strides x) := by
  induction strides generalizing x v with
  | nil => exact hself v
  | cons stride rest ih =>
    have hpick : ∀ k l, R (stride.pick x k l) := by
      intro k l
      obtain ⟨j, hj⟩ := stride.pick_mem x k l
      exact hj ▸ hx j
    cases rest with
    | nil =>
      refine hstep v _ fun slot _ u hu => ?_
      split at hu
      · exact .inr ⟨_, _, hpick slot.1 none, hu⟩
      · exact .inl (Option.some.inj hu ▸ hself slot.2)
    | cons next rest =>
      refine hstep v _ fun slot _ u hu => .inl ?_
      obtain rfl := Option.some.inj hu
      split
      · exact ih (hpick slot.1)
      · exact hself slot.2

theorem filledSlots_eq (kind : Kind) (slots : List Slot) (c : Value) (chosen : List Key → Bool) :
    filledSlots kind slots c chosen = slots.filterMap fun slot =>
      (if chosen [slot.1] then settled kind c
        else some (slot.2.filled c fun position => chosen (slot.1 :: position))).map
          fun u => (slot.1, u) := by
  induction slots with
  | nil => rfl
  | cons slot rest ih =>
    obtain ⟨k, v⟩ := slot
    rw [filledSlots, List.filterMap_cons, ih]
    by_cases hk : chosen [k] = true
    · simp only [hk, if_true]
      cases settled kind c <;> rfl
    · simp [hk]

theorem filled_eq (v c : Value) (chosen : List Key → Bool) :
    v.filled c chosen = v.withSlots fun k child => if chosen [k] then settled v.kind c
      else some (child.filled c fun position => chosen (k :: position)) := by
  cases v with
  | scalar s => rfl
  | node id shape tag snapshot slots => rw [filled, withSlots, filledSlots_eq]; rfl

/-! ## Strides on changed values -/

/-- No two slots of the value have the same key. -/
def keysDiffer (v : Value) : Bool := decide (Slots.Distinct v.slots)

/-- No container at any depth has two slots of the same key. -/
def isWellKeyed (v : Value) : Bool := v.everywhere keysDiffer

/-- A mapping has a decimal text as a key, and beside it the number that the text denotes. -/
def hasTwins (v : Value) : Bool := v.kind = .mapping && v.slots.any fun slot =>
  match slot.1 with
  | .atom (.text s) =>
    (Text.ofNumeral? s.toList).any fun i => (Slots.get? (.index i) v.slots).isSome
  | _ => false

theorem keysDiffer_iff {v : Value} : v.keysDiffer = true ↔ Slots.Distinct v.slots :=
  decide_eq_true_iff

theorem distinct_children {v : Value} (h : v.isWellKeyed = true) :
    Slots.Distinct v.children := by
  cases v with
  | scalar s => simp [children_scalar, Slots.Distinct]
  | node id shape tag snapshot slots =>
    by_cases ht : shape.kind.isTraversable = true
    · rw [children_node ht]
      exact keysDiffer_iff.mp ((everywhere_node ht).mp h).1
    · simp [children, kind, ht, Slots.Distinct]

theorem everywhere_child {p : Value → Bool} {v : Value} (h : v.everywhere p = true) {slot : Slot}
    (mem : slot ∈ v.children) : slot.2.everywhere p = true := by
  obtain ⟨id, shape, tag, snapshot, slots, rfl, ht, mem⟩ := exists_node mem
  exact ((everywhere_node ht).mp h).2 slot mem

theorem slot?_eq_some {v child : Value} {segment : String} {found : Key} :
    v.slot? segment = .ok (some (found, child)) ↔ Slots.get? found v.children = some child ∧
      (found = .text segment ∨ Slots.get? (.text segment) v.children = none ∧
        ∃ i, Path.index? segment = .ok (some i) ∧ found = .index i) := by
  unfold slot?
  cases htext : Slots.get? (Key.text segment) v.children with
  | some u =>
    simp only [Except.ok.injEq, Option.some.injEq, Prod.mk.injEq]
    constructor
    · rintro ⟨rfl, rfl⟩
      exact ⟨htext, .inl rfl⟩
    · rintro ⟨hget, rfl | ⟨hnone, _⟩⟩
      · exact ⟨rfl, Option.some.inj (htext.symm.trans hget)⟩
      · simp at hnone
  | none =>
    by_cases ht : v.kind.isTraversable = true
    · simp only [ht, if_true]
      cases hindex : Path.index? segment with
      | error failure =>
        simp only [Except.map, reduceCtorEq, false_and, exists_false, and_false, or_false,
          false_iff, not_and]
        rintro hget rfl
        simp [htext] at hget
      | ok index =>
        cases index with
        | none =>
          simp only [Except.map, Option.bind_none, Except.ok.injEq, reduceCtorEq, false_and,
            exists_false, and_false, or_false, false_iff, not_and]
          rintro hget rfl
          simp [htext] at hget
        | some i =>
          simp only [Except.map, Option.bind_some, Except.ok.injEq, Option.map_eq_some_iff,
            Prod.mk.injEq, Option.some.injEq, true_and]
          constructor
          · rintro ⟨u, hu, rfl, rfl⟩
            exact ⟨hu, .inr ⟨i, rfl, rfl⟩⟩
          · rintro ⟨hget, rfl | ⟨_, rfl, rfl⟩⟩
            · simp [htext] at hget
            · exact ⟨child, hget, rfl, rfl⟩
    · simp [ht, children, Slots.get?]

end Value

theorem Stride.finds?_named {v : Value} {segment : String} {k found : Key} :
    (Stride.named segment).finds? v k = some found ↔ ∃ child, child.isMissing = false ∧
      found.same k = true ∧ v.slot? segment = .ok (some (found, child)) := by
  unfold Stride.finds?
  simp only
  split
  · rename_i key child hslot
    simp only [hslot, Except.ok.injEq, Option.some.injEq, Prod.mk.injEq]
    by_cases hgood : (key.same k && !child.isMissing) = true
    · rw [if_pos hgood]
      simp only [Bool.and_eq_true, Bool.not_eq_true'] at hgood
      constructor
      · rintro h
        obtain rfl := Option.some.inj h
        exact ⟨child, hgood.2, hgood.1, rfl, rfl⟩
      · rintro ⟨_, _, _, rfl, _⟩
        rfl
    · rw [if_neg hgood]
      simp only [reduceCtorEq, false_iff]
      rintro ⟨_, hmissing, hsame, rfl, rfl⟩
      simp [hsame, hmissing] at hgood
  · rename_i hother
    simp only [reduceCtorEq, false_iff]
    rintro ⟨child, _, _, hslot⟩
    exact hother _ _ hslot

/-- A stride finds the same slots where only what they hold is different, as long as the same ones
hold the marker for nothing found. -/
theorem Stride.finds?_map {stride : Stride} {v v' : Value} {g : Slot → Value}
    (hkind : v'.kind.isTraversable = v.kind.isTraversable)
    (hchildren : v'.children = v.children.map fun slot => (slot.1, g slot))
    (hmissing : ∀ slot ∈ v.children, (g slot).isMissing = slot.2.isMissing) (k : Key) :
    stride.finds? v' k = stride.finds? v k := by
  have hget : ∀ j, Slots.get? j v.children = none ∧ Slots.get? j v'.children = none ∨
      ∃ u u', Slots.get? j v.children = some u ∧ Slots.get? j v'.children = some u' ∧
        u'.isMissing = u.isMissing := by
    intro j
    rw [hchildren]
    clear hchildren
    generalize v.children = slots at hmissing ⊢
    induction slots with
    | nil => exact .inl ⟨rfl, rfl⟩
    | cons slot rest ih =>
      by_cases hj : slot.1.same j = true
      · refine .inr ⟨slot.2, g slot, by simp [Slots.get?, hj], by simp [Slots.get?, hj], ?_⟩
        exact hmissing slot List.mem_cons_self
      · simp only [List.map_cons, Slots.get?, hj]
        exact ih fun other mem => hmissing other (List.mem_cons_of_mem _ mem)
  cases stride with
  | every => rfl
  | named segment =>
    unfold finds? Value.slot?
    rcases hget (.text segment) with ⟨hold, hnew⟩ | ⟨u, u', hold, hnew, hsame⟩
    · simp only [hold, hnew, hkind]
      by_cases ht : v.kind.isTraversable = true
      · cases Path.index? segment with
        | error failure => simp [Except.map, ht]
        | ok index =>
          cases index with
          | none => simp [Except.map, ht]
          | some i =>
            rcases hget (.index i) with ⟨hold, hnew⟩ | ⟨u, u', hold, hnew, hsame⟩
            · simp [Except.map, ht, hold, hnew]
            · simp [Except.map, ht, hold, hnew, hsame]
      · simp [ht]
    · simp [hold, hnew, hsame]

theorem Stride.same_of_finds? {stride : Stride} {v : Value} {k found : Key}
    (h : stride.finds? v k = some found) : found.same k = true := by
  cases stride with
  | named segment =>
    obtain ⟨_, _, hsame, _⟩ := finds?_named.mp h
    exact hsame
  | every =>
    obtain rfl := Option.some.inj h
    exact Key.same_refl k

namespace Value

variable {f : Key → Value → Option Value} {v : Value}

theorem everywhere_withSlots {p : Value → Bool} (hp : p v = true → p (v.withSlots f) = true)
    (hv : v.everywhere p = true)
    (h : ∀ slot ∈ v.children, ∀ u ∈ f slot.1 slot.2, u.everywhere p = true) :
    (v.withSlots f).everywhere p = true := by
  cases v with
  | scalar s => rfl
  | node id shape tag snapshot slots =>
    by_cases ht : shape.kind.isTraversable = true
    · rw [children_node ht] at h
      rw [withSlots, everywhere_node ht]
      refine ⟨hp ((everywhere_node ht).mp hv).1, fun slot mem => ?_⟩
      rw [if_pos ht] at mem
      obtain ⟨old, memOld, hold⟩ := List.mem_filterMap.mp mem
      obtain ⟨u, hu, rfl⟩ := Option.map_eq_some_iff.mp hold
      exact h old memOld u hu
    · simp [withSlots, ht, everywhere]

theorem keysDiffer_withSlots (h : v.keysDiffer = true) : (v.withSlots f).keysDiffer = true := by
  cases v with
  | scalar s => exact h
  | node id shape tag snapshot slots =>
    rw [keysDiffer_iff] at h ⊢
    simp only [withSlots, Value.slots] at h ⊢
    split
    · exact h.filterMap f
    · exact h

theorem isMissing_withSlots : (v.withSlots f).isMissing = v.isMissing := by
  cases v <;> rfl

theorem isMissing_filled (v c : Value) (chosen : List Key → Bool) :
    (v.filled c chosen).isMissing = v.isMissing := by
  rw [filled_eq, isMissing_withSlots]

theorem get?_withSlots (h : Slots.Distinct v.children) {k j : Key} {child u : Value}
    (mem : (k, child) ∈ v.children) (hf : f k child = some u) (hk : k.same j = true) :
    Slots.get? j (v.withSlots f).children = some u := by
  rw [children_withSlots]
  refine Slots.get?_of_mem (h.filterMap f) (List.mem_filterMap.mpr ⟨(k, child), mem, ?_⟩) hk
  rw [hf]
  rfl

theorem get?_withSlots_of_none {j : Key} (h : Slots.get? j v.children = none) :
    Slots.get? j (v.withSlots f).children = none := by
  rw [Slots.get?_eq_none] at h ⊢
  intro slot mem
  rw [children_withSlots] at mem
  obtain ⟨old, memOld, hold⟩ := List.mem_filterMap.mp mem
  obtain ⟨u, _, rfl⟩ := Option.map_eq_some_iff.mp hold
  exact h old memOld

/-- Where a decimal text is a key beside its number, taking the text out would lead to the number
instead. -/
theorem no_twin (h : v.hasTwins = false) (hkind : v.kind = .mapping) {segment : String}
    {i : Nat} (hi : Path.index? segment = .ok (some i))
    (htext : Slots.get? (.text segment) v.children ≠ none) :
    Slots.get? (.index i) v.children = none := by
  have hslots : v.children = v.slots := by simp [children, hkind, Kind.isTraversable]
  simp only [hasTwins, hkind, decide_true, Bool.true_and, List.any_eq_false] at h
  obtain ⟨u, hu⟩ := Option.ne_none_iff_exists'.mp htext
  obtain ⟨j, hj, mem⟩ := get?_mem hu
  obtain rfl := Key.eq_text_of_same hj
  have hnumeral : Text.ofNumeral? segment.toList = some i := by
    simp only [Path.index?] at hi
    split at hi
    · simp at hi
    · exact Except.ok.inj hi
  rw [hslots] at mem
  have := h _ mem
  simpa [Key.text, hnumeral, hslots] using this

end Value

/-- Taking slots out and changing them does not change which of the kept slots a stride leads into,
as long as the kept slot holds the marker for nothing found afterwards only if it did before. Slots
are taken out of mappings only, and of none with twins. -/
theorem Stride.leads_withSlots {stride : Stride} {v : Value} {f : Key → Value → Option Value}
    (hkeys : Slots.Distinct v.children)
    (htwins : ∀ slot ∈ v.children, f slot.1 slot.2 = none →
      v.kind = .mapping ∧ v.hasTwins = false)
    {k : Key} {child u : Value} (mem : (k, child) ∈ v.children) (hf : f k child = some u)
    (hmissing : u.isMissing = child.isMissing) :
    stride.leads (v.withSlots f) k = stride.leads v k := by
  cases stride with
  | every => rfl
  | named segment =>
    have hget : ∀ j, k.same j = true → Slots.get? j v.children = some child ∧
        Slots.get? j (v.withSlots f).children = some u := fun j hj =>
      ⟨Slots.get?_of_mem hkeys mem hj, Value.get?_withSlots hkeys mem hf hj⟩
    rw [Bool.eq_iff_iff, leads, leads, Option.isSome_iff_exists, Option.isSome_iff_exists]
    refine exists_congr fun found => ?_
    rw [finds?_named, finds?_named]
    constructor
    · rintro ⟨w, hw, hsame, hslot⟩
      obtain ⟨hfound, hname⟩ := Value.slot?_eq_some.mp hslot
      obtain ⟨hold, hnew⟩ := hget found (Key.same_comm found k ▸ hsame)
      obtain rfl : u = w := Option.some.inj (hnew.symm.trans hfound)
      refine ⟨child, hmissing ▸ hw, hsame, Value.slot?_eq_some.mpr ⟨hold, ?_⟩⟩
      refine hname.imp_right fun ⟨hnone, i, hi, hkey⟩ => ⟨?_, i, hi, hkey⟩
      -- the text would have been taken out beside its number
      by_contra htext
      obtain ⟨w, hw⟩ := Option.ne_none_iff_exists'.mp htext
      obtain ⟨j, hj, memText⟩ := Value.get?_mem hw
      cases hgone : f j w with
      | some w' => simp [Value.get?_withSlots hkeys memText hgone hj] at hnone
      | none =>
        obtain ⟨hkind, hno⟩ := htwins _ memText hgone
        have := Value.no_twin hno hkind hi htext
        rw [← hkey, hold] at this
        simp at this
    · rintro ⟨w, hw, hsame, hslot⟩
      obtain ⟨hfound, hname⟩ := Value.slot?_eq_some.mp hslot
      obtain ⟨hold, hnew⟩ := hget found (Key.same_comm found k ▸ hsame)
      obtain rfl : child = w := Option.some.inj (hold.symm.trans hfound)
      refine ⟨u, hmissing.trans hw, hsame, Value.slot?_eq_some.mpr ⟨hnew, ?_⟩⟩
      exact hname.imp_right fun ⟨hnone, rest⟩ => ⟨Value.get?_withSlots_of_none hnone, rest⟩

namespace Value

/-! ## Contents -/

theorem children_likeness (thaw : Bool) (v : Value) : (v.likeness thaw).children =
    v.children.map fun slot => (slot.1, slot.2.likeness thaw) := by
  cases v with
  | scalar s => simp [likeness, children_scalar]
  | node id shape tag snapshot slots =>
    by_cases ht : shape.kind.isTraversable = true
    · obtain ⟨shape', tag', snapshot', _, ht', heq⟩ :=
        exists_likeness thaw id shape tag snapshot ht
      rw [heq, children_node ht, children_node ht', likenessSlots_eq_map]
    · have ht : shape.kind.isTraversable = false := by simpa using ht
      rw [likeness_untraversed ht]
      simp [children, kind, ht]

theorem isTraversable_likeness (thaw : Bool) (v : Value) :
    (v.likeness thaw).kind.isTraversable = v.kind.isTraversable := by
  cases v with
  | scalar s => rfl
  | node id shape tag snapshot slots =>
    unfold likeness
    split
    · rfl
    · rename_i ht
      have ht : shape.kind.isTraversable = true := by simpa using ht
      split
      · exact ht.symm
      · rfl

theorem isMissing_likeness (thaw : Bool) (v : Value) :
    (v.likeness thaw).isMissing = v.isMissing := by
  cases v with
  | scalar s => rfl
  | node id shape tag snapshot slots =>
    unfold likeness
    split
    · rfl
    · split <;> rfl

theorem finds?_likeness (stride : Stride) (thaw : Bool) (v : Value) (k : Key) :
    stride.finds? (v.likeness thaw) k = stride.finds? v k :=
  Stride.finds?_map (isTraversable_likeness thaw v) (children_likeness thaw v)
    (fun slot _ => isMissing_likeness thaw slot.2) k

theorem kind_content (v : Value) : v.content.kind = v.kind := by
  cases v with
  | scalar s => rfl
  | node id shape tag snapshot slots =>
    unfold content likeness
    split
    · rfl
    · simp [kind]

/-- Where what becomes of each slot commutes with duplicating, so does changing the slots. -/
theorem likeness_withSlots {thaw : Bool} {v : Value} {f g : Key → Value → Option Value}
    (h : ∀ slot ∈ v.children,
      (f slot.1 slot.2).map (likeness thaw) = g slot.1 (slot.2.likeness thaw)) :
    (v.withSlots f).likeness thaw = (v.likeness thaw).withSlots g := by
  cases v with
  | scalar s => rfl
  | node id shape tag snapshot slots =>
    by_cases ht : shape.kind.isTraversable = true
    · rw [children_node ht] at h
      have hslots : likenessSlots thaw
          (slots.filterMap fun slot => (f slot.1 slot.2).map fun u => (slot.1, u)) =
          (likenessSlots thaw slots).filterMap
            fun slot => (g slot.1 slot.2).map fun u => (slot.1, u) := by
        rw [likenessSlots_eq_map, likenessSlots_eq_map, List.map_filterMap, List.filterMap_map]
        refine List.filterMap_congr fun slot mem => ?_
        simp only [Function.comp_apply, ← h slot mem, Option.map_map]
        rfl
      obtain ⟨shape', tag', snapshot', _, ht', heq⟩ := exists_likeness thaw id shape tag snapshot ht
      rw [withSlots, if_pos ht, heq, heq, hslots, withSlots, if_pos ht']
    · have ht : shape.kind.isTraversable = false := by simpa using ht
      simp [withSlots, likeness_untraversed ht, ht]

theorem content_redactAlong {strides : List Stride} {x : Option Key → Value} {v : Value}
    (hx : ∀ l, (x l).kind.isTraversable = false) :
    (v.redactAlong strides x).content = v.content.redactAlong strides x := by
  induction strides generalizing x v with
  | nil => rfl
  | cons stride rest ih =>
    have hpick : ∀ k l, (stride.pick x k l).kind.isTraversable = false := by
      intro k l
      obtain ⟨j, hj⟩ := stride.pick_mem x k l
      exact hj ▸ hx j
    cases rest with
    | nil =>
      refine likeness_withSlots fun slot _ => ?_
      simp only [Stride.leads, finds?_likeness, kind_content]
      by_cases hl : (stride.finds? v slot.1).isSome = true
      · simp only [hl, if_true]
        cases hs : settled v.kind (stride.pick x slot.1 none) with
        | none => rfl
        | some y =>
          rw [Option.map_some,
            likeness_of_not_traversable (isTraversable_settled (hpick slot.1 none) hs)]
      · simp [hl]
    | cons next rest =>
      refine likeness_withSlots fun slot _ => ?_
      simp only [Stride.leads, finds?_likeness, Option.map_some]
      by_cases hl : (stride.finds? v slot.1).isSome = true
      · simp only [hl, if_true, ih (hpick slot.1)]
      · simp [hl]

end Value

end Redaction
