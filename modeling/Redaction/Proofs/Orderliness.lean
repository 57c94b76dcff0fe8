import Redaction.Proofs.ConcretePaths
import Redaction.Proofs.Copying

/-!
# Orderly values

A value is orderly if no container in it stands inside itself and none has two slots of the same
key. Duplicates of orderly values are orderly: their containers are made before what stands in them,
and the objects that a copy made as a whole puts into its keys are new. No write gives a container a
key twice, and a write closes a cycle only if it stores a container inside itself.

Main statements: `Value.isOrderly_renew`, `Value.isOrderly_after` and
`Value.keepsOrder_of_closesNoCycle`.
-/

namespace Redaction

/-! ## Keys of copies -/

/-- The symbol for a new object, where it stands for one. -/
def Token.shift (offset : Ident) : Token → Token
  | object id => object (id + offset)
  | sentinel which id => sentinel which (id + offset)
  | t => t

/-- An object that the symbol stands for has an identity below `n`. -/
def Token.isBelow (n : Ident) : Token → Bool
  | object id | sentinel _ id => id < n
  | _ => true

theorem Token.shift_injective (offset : Ident) : Function.Injective (Token.shift offset) := by
  intro a b h
  cases a <;> cases b <;> simp_all [Token.shift]

theorem Token.isBelow_shift {n : Ident} {t : Token} (h : t.isObject = true) :
    (t.shift n).isBelow n = false := by
  cases t <;> simp_all [Token.isObject, Token.shift, Token.isBelow]

namespace Key

/-- All objects in the key have identities below `n`. -/
def isBelow (n : Ident) (k : Key) : Bool := k.tokens.all (Token.isBelow n)

theorem token_shift (offset : Ident) (a : Atom) :
    (a.shift offset).token = a.token.shift offset := by
  cases a with
  | binary x => cases x <;> rfl
  | decimal x => cases x <;> rfl
  | _ => rfl

mutual

theorem tokens_shift (offset : Ident) :
    ∀ k : Key, (k.shift offset).tokens = k.tokens.map (Token.shift offset)
  | atom a => by simp [shift, tokens, token_shift]
  | tuple form items => by
    rw [shift, tokens, tokens, List.map_cons, tokensOfList_shiftList offset items]
    simp [Token.shift, length_shiftList]
  | frozen item => by
    rw [shift, tokens, tokens, List.map_cons, tokensOfOption_shiftOption offset item]
    cases item <;> rfl

theorem tokensOfList_shiftList (offset : Ident) : ∀ ks : List Key,
    tokensOfList (shiftList offset ks) = (tokensOfList ks).map (Token.shift offset)
  | [] => rfl
  | k :: rest => by
    rw [shiftList, tokensOfList, tokensOfList, List.map_append, tokens_shift offset k,
      tokensOfList_shiftList offset rest]

theorem tokensOfOption_shiftOption (offset : Ident) : ∀ k : Option Key,
    tokensOfOption (shiftOption offset k) = (tokensOfOption k).map (Token.shift offset)
  | none => rfl
  | some k => tokens_shift offset k

theorem length_shiftList (offset : Ident) :
    ∀ ks : List Key, (shiftList offset ks).length = ks.length
  | [] => rfl
  | _ :: rest => congrArg Nat.succ (length_shiftList offset rest)

end

variable {j k : Key} {n : Ident}

theorem same_shift (offset : Ident) : (j.shift offset).same (k.shift offset) = j.same k := by
  simp only [same, tokens_shift, (Token.shift_injective offset).list_map.eq_iff]

theorem isBelow_congr (h : j.same k = true) : j.isBelow n = k.isBelow n := by
  simp only [same, decide_eq_true_eq] at h
  rw [isBelow, isBelow, h]

theorem isBelow_shift (h : k.holdsObject = true) : (k.shift n).isBelow n = false := by
  rw [holdsObject_eq_any, List.any_eq_true] at h
  obtain ⟨t, mem, ht⟩ := h
  rw [isBelow, tokens_shift, List.all_eq_false]
  exact ⟨_, List.mem_map_of_mem mem, by simp [Token.isBelow_shift ht]⟩

theorem isBelow_mono {m : Ident} (h : k.isBelow n = true) (hm : n ≤ m) : k.isBelow m = true := by
  simp only [isBelow, List.all_eq_true] at h ⊢
  intro t mem
  have ht := h t mem
  cases t <;> simp_all [Token.isBelow] <;> lia

end Key

namespace Slots

theorem map_fst_refill {n : Ident} {old duplicates : List Slot}
    (hfst : duplicates.map Prod.fst = old.map Prod.fst) :
    (Value.refill n old duplicates).map Prod.fst =
      (old.map Prod.fst).map (fun k => if k.holdsObject then k.shift n else k) ++
        (old.map Prod.fst).filter Key.holdsObject := by
  have hzipped : (List.zipWith (fun slot duplicate => if slot.1.holdsObject then
      (slot.1.shift n, slot.2.shift n) else duplicate) old duplicates).map Prod.fst =
        (old.map Prod.fst).map fun k => if k.holdsObject then k.shift n else k := by
    induction old generalizing duplicates with
    | nil => simp
    | cons slot rest ih =>
      cases duplicates with
      | nil => simp at hfst
      | cons duplicate others =>
        obtain ⟨hhead, htail⟩ := List.cons.inj hfst
        rw [List.zipWith_cons_cons, List.map_cons, ih htail, List.map_cons, List.map_cons]
        by_cases hk : slot.1.holdsObject = true
        · simp [hk]
        · simp only [hk]
          exact congrArg (· :: _) hhead
  have hfiltered : (duplicates.filter fun slot => slot.1.holdsObject).map Prod.fst =
      (old.map Prod.fst).filter Key.holdsObject := by
    rw [← hfst, List.filter_map]
    rfl
  rw [← hfiltered, ← hzipped, ← List.map_append]
  rfl

/-- A container copied as a whole has each key once: the objects in the keys of the copy are new. -/
theorem Distinct.refill {n : Ident} {old duplicates : List Slot} (h : Distinct old)
    (hbelow : ∀ slot ∈ old, slot.1.isBelow n = true)
    (hfst : duplicates.map Prod.fst = old.map Prod.fst) :
    Distinct (Value.refill n old duplicates) := by
  have hold := distinct_iff.mp h
  have hshift : ∀ k j : Key, k.holdsObject = true → j.isBelow n = true →
      (k.shift n).same j = false := by
    intro k j hk hj
    by_contra hsame
    have hshifted := Key.isBelow_congr (n := n) (Bool.not_eq_false _ ▸ hsame)
    rw [hj, Key.isBelow_shift hk] at hshifted
    cases hshifted
  have hplain : ∀ k j : Key, k.holdsObject = false → j.holdsObject = true → k.same j = false := by
    intro k j hk hj
    by_contra hsame
    have hobject := Key.holdsObject_congr (Bool.not_eq_false _ ▸ hsame)
    rw [hk, hj] at hobject
    cases hobject
  rw [distinct_iff, map_fst_refill hfst, List.pairwise_append]
  refine ⟨?_, hold.filter _, fun a ha b hb => ?_⟩
  · refine List.pairwise_map.mpr (hold.imp fun {a b} hab => ?_)
    by_cases ha : a.holdsObject = true <;> by_cases hb : b.holdsObject = true <;>
      simp only [ha, hb, if_true, if_false, Bool.false_eq_true]
    · rw [Key.same_shift, hab]
    · rw [Key.same_comm]
      exact hplain b _ (by simpa using hb) (by rw [Key.holdsObject_shift, ha])
    · exact hplain a _ (by simpa using ha) (by rw [Key.holdsObject_shift, hb])
    · exact hab
  · obtain ⟨k, _, rfl⟩ := List.mem_map.mp ha
    obtain ⟨hmem, hobject⟩ := List.mem_filter.mp hb
    obtain ⟨slot, mem, rfl⟩ := List.mem_map.mp hmem
    by_cases hk : k.holdsObject = true
    · simp only [hk, if_true]
      exact hshift k _ hk (hbelow slot mem)
    · simp only [hk]
      exact hplain k _ (by simpa using hk) hobject

theorem Distinct.put {slots : List Slot} (h : Distinct slots) (k : Key) (v : Value) :
    Distinct (put k v slots) := by
  induction slots with
  | nil => exact List.pairwise_singleton _ _
  | cons slot rest ih =>
    obtain ⟨name, old⟩ := slot
    obtain ⟨hfirst, hrest⟩ := List.pairwise_cons.mp h
    by_cases hk : name.same k = true
    · simp only [Slots.put, hk, if_true]
      exact List.pairwise_cons.mpr ⟨hfirst, hrest⟩
    · simp only [Slots.put, hk]
      have hother := forall_put (P := fun j => name.same j = false) (Q := fun _ => True) (v := v)
        (by simpa using hk) trivial fun slot mem => ⟨hfirst slot mem, trivial⟩
      exact List.pairwise_cons.mpr ⟨fun slot mem => (hother slot mem).1, ih hrest⟩

theorem Distinct.erase {slots : List Slot} (h : Distinct slots) (k : Key) :
    Distinct (erase k slots) := by
  induction slots with
  | nil => exact h
  | cons slot rest ih =>
    obtain ⟨name, old⟩ := slot
    obtain ⟨hfirst, hrest⟩ := List.pairwise_cons.mp h
    by_cases hk : name.same k = true
    · simp only [Slots.erase, hk, if_true]
      exact hrest
    · simp only [Slots.erase, hk]
      exact List.pairwise_cons.mpr
        ⟨fun slot mem => hfirst slot (Value.erase_subset k rest mem), ih hrest⟩

theorem Distinct.apply {slots : List Slot} (h : Distinct slots) (w : Write) :
    Distinct (w.apply slots) := by
  unfold Write.apply
  split
  · exact h.put _ _
  · exact h.erase _

end Slots

namespace Value

/-! ## What is within a value -/

section

variable {u v x : Value}

theorem within_subset (h : u ∈ v.within) : u.within ⊆ v.within := by
  intro x hx
  induction v using Value.induction with
  | scalar s =>
    obtain rfl : u = scalar s := by simpa [within] using h
    exact hx
  | node id shape tag snapshot slots _ _ ihSlots =>
    rcases mem_within_node.mp h with rfl | ⟨ht, slot, mem, hu⟩
    · exact hx
    · exact mem_within_node.mpr (.inr ⟨ht, slot, mem, ihSlots slot mem hu⟩)

theorem child_mem_within {slot : Slot} (mem : slot ∈ v.children) : slot.2 ∈ v.within := by
  obtain ⟨id, shape, tag, snapshot, slots, rfl, ht, mem⟩ := exists_node mem
  exact mem_within_node.mpr (.inr ⟨ht, slot, mem, self_mem_within _⟩)

theorem walk_mem_within {segments : List String} (h : v.walk segments = .ok (some u)) :
    u ∈ v.within := by
  induction segments generalizing v with
  | nil =>
    obtain rfl : v = u := by simpa [walk] using h
    exact self_mem_within v
  | cons segment rest ih =>
    unfold walk at h
    split at h
    · cases h
    · cases h
    · rename_i k child found
      obtain ⟨j, _, mem⟩ := slot?_mem found
      exact within_subset (child_mem_within mem) (ih h)

theorem reach_subset_of_mem_within (h : u ∈ v.within) : u.reach ⊆ v.reach := by
  induction v using Value.induction with
  | scalar s =>
    obtain rfl : u = scalar s := by simpa [within] using h
    exact List.Subset.refl _
  | node id shape tag snapshot slots _ _ ihSlots =>
    rcases mem_within_node.mp h with rfl | ⟨ht, slot, mem, hu⟩
    · exact List.Subset.refl _
    · exact fun i hi => mem_reach_node.mpr ⟨ht, .inr ⟨slot, mem, ihSlots slot mem hu hi⟩⟩

end

/-! ## Orderly values -/

/-- The container does not stand inside itself. -/
def isLoopFree : Value → Bool
  | scalar _ => true
  | node id _ _ _ slots => slots.all fun slot => decide (id ∉ slot.2.reach)

/-- No container stands inside itself, and none has two slots of the same key. -/
def isOrderly (v : Value) : Bool := v.everywhere fun u => u.isLoopFree && u.keysDiffer

/-- All objects in keys have identities below `n`. -/
def keysBelow (n : Ident) (v : Value) : Bool :=
  v.everywhere fun u => u.slots.all fun slot => slot.1.isBelow n

section

variable {v : Value} {id : Ident} {shape : Shape} {tag snapshot : Option Value} {slots : List Slot}

theorem isOrderly_node (ht : shape.kind.isTraversable = true) :
    (node id shape tag snapshot slots).isOrderly = true ↔
      ((∀ slot ∈ slots, id ∉ slot.2.reach) ∧ Slots.Distinct slots) ∧
        ∀ slot ∈ slots, slot.2.isOrderly = true := by
  rw [isOrderly, everywhere_node ht, Bool.and_eq_true, keysDiffer_iff, isLoopFree, List.all_eq_true]
  simp only [decide_eq_true_eq]
  rfl

theorem keysBelow_node {n : Ident} (ht : shape.kind.isTraversable = true) :
    (node id shape tag snapshot slots).keysBelow n = true ↔
      (∀ slot ∈ slots, slot.1.isBelow n = true) ∧ ∀ slot ∈ slots, slot.2.keysBelow n = true := by
  rw [keysBelow, everywhere_node ht, List.all_eq_true]
  rfl

theorem keysBelow_mono {n m : Ident} (h : v.keysBelow n = true) (hm : n ≤ m) :
    v.keysBelow m = true := by
  refine everywhere_iff.mpr fun u hu ht => ?_
  have hkeys := everywhere_iff.mp h u hu ht
  simp only [List.all_eq_true] at hkeys ⊢
  exact fun slot mem => Key.isBelow_mono (hkeys slot mem) hm

theorem isWellKeyed_of_isOrderly (h : v.isOrderly = true) : v.isWellKeyed = true :=
  everywhere_iff.mpr fun u hu ht => (Bool.and_eq_true_iff.mp (everywhere_iff.mp h u hu ht)).2

/-! ## Duplicates -/

theorem reach_shift (offset : Ident) (v : Value) :
    (v.shift offset).reach = v.reach.map (· + offset) := by
  induction v using Value.induction with
  | scalar s => rfl
  | node id shape tag snapshot slots _ _ ihSlots =>
    by_cases ht : shape.kind.isTraversable = true
    · simp only [shift, reach, ht, if_true, reachSlots_eq_flatMap, shiftSlots_eq_map,
        List.flatMap_map, List.map_cons, List.map_flatMap]
      congr 1
      exact List.flatMap_congr fun slot mem => ihSlots slot mem
    · simp [shift, reach, ht]

theorem isOrderly_shift (offset : Ident) (h : v.isOrderly = true) :
    (v.shift offset).isOrderly = true := by
  induction v using Value.induction with
  | scalar s => rfl
  | node id shape tag snapshot slots _ _ ihSlots =>
    by_cases ht : shape.kind.isTraversable = true
    · obtain ⟨⟨hloop, hkeys⟩, hbelow⟩ := (isOrderly_node ht).mp h
      rw [shift, shiftSlots_eq_map, isOrderly_node ht]
      simp only [List.forall_mem_map]
      refine ⟨⟨fun slot mem => ?_, ?_⟩, fun slot mem => ihSlots slot mem (hbelow slot mem)⟩
      · simpa [reach_shift] using hloop slot mem
      · refine List.pairwise_map.mpr (hkeys.imp fun {a b} hab => ?_)
        rw [Key.same_shift, hab]
    · exact everywhere_of_not_traversable (by simpa [shift, kind] using ht)

/-- The slots of a duplicate hold orderly values that do not hold the container they stand in. -/
theorem isOrderly_renewSlots {thaw : Bool} {n i : Ident} (hi : i < n)
    (h : ∀ slot ∈ slots, ∀ m, n ≤ m → (slot.2.renew thaw m).1.isOrderly = true)
    (hids : ∀ slot ∈ slots, ∀ i ∈ slot.2.ids, i < n) :
    ∀ slot ∈ (renewSlots thaw slots n).1, i ∉ slot.2.reach ∧ slot.2.isOrderly = true := by
  intro slot mem
  obtain ⟨old, memOld, m, hm, rfl⟩ := mem_renewSlots mem
  refine ⟨fun hreach => ?_, h old memOld m hm⟩
  have hfresh := (renew_fresh thaw fun i hi => lt_of_lt_of_le (hids old memOld i hi) hm).2
  have := (hfresh.reach i hreach).1
  lia

theorem isOrderly_renew (thaw : Bool) {n : Ident} (hv : v.isOrderly = true)
    (hids : ∀ id ∈ v.ids, id < n) (hkeys : v.keysBelow n = true) :
    (v.renew thaw n).1.isOrderly = true := by
  induction v using Value.induction generalizing n with
  | scalar s => rfl
  | node id shape tag snapshot slots _ _ ihSlots =>
    by_cases ht : shape.kind.isTraversable = true
    swap
    · rw [renew_of_not_traversable (by simpa [kind] using ht)]
      exact hv
    obtain ⟨⟨hloop, hdistinct⟩, horderly⟩ := (isOrderly_node ht).mp hv
    obtain ⟨hbelow, hbelowSlots⟩ := (keysBelow_node ht).mp hkeys
    have hidsSlots : ∀ slot ∈ slots, ∀ i ∈ slot.2.ids, i < n := fun slot mem i hi =>
      hids i (mem_ids_node.mpr (.inr (.inr (.inr ⟨slot, mem, hi⟩))))
    have hslots : ∀ m, n ≤ m → ∀ slot ∈ (renewSlots thaw slots (m + 1)).1,
        m ∉ slot.2.reach ∧ slot.2.isOrderly = true := fun m hm =>
      isOrderly_renewSlots (Nat.lt_succ_self m)
        (fun slot mem k hk => ihSlots slot mem (horderly slot mem)
          (fun i hi => lt_of_lt_of_le (hidsSlots slot mem i hi) (by lia))
          (keysBelow_mono (hbelowSlots slot mem) (by lia)))
        fun slot mem i hi => lt_of_lt_of_le (hidsSlots slot mem i hi) (by lia)
    have hnode : ∀ shape' tag' snapshot', shape'.kind.isTraversable = true →
        (node n shape' tag' snapshot' (renewSlots thaw slots (n + 1)).1).isOrderly = true :=
      fun shape' tag' snapshot' ht' => (isOrderly_node ht').mpr
        ⟨⟨fun slot mem => (hslots n le_rfl slot mem).1,
          (Slots.distinct_congr (renewSlots_fst thaw slots (n + 1))).mpr hdistinct⟩,
          fun slot mem => (hslots n le_rfl slot mem).2⟩
    rcases Shape.copying shape with rfl | ⟨form, rfl⟩ | hb | hw
    · cases ht
    · rw [renew_tuple]
      cases thaw
      · exact hnode _ _ _ rfl
      · exact hnode _ _ _ rfl
    · rw [renew_builtIn hb]
      exact hnode _ _ _ ht
    · rw [renew_whole hw]
      have hle : n ≤ wholeIdent snapshot slots n := le_wholeIdent
      refine (isOrderly_node ht).mpr ⟨⟨fun slot mem hreach => ?_, ?_⟩, fun slot mem => ?_⟩
      · rcases mem_refill mem with mem | ⟨u, memOld, hobject, rfl⟩
        · exact (hslots _ hle slot mem).1 hreach
        · -- the copies that an object brings along lie below the container
          rw [wholeIdent_eq (.inr ⟨u, memOld, hobject⟩), reach_shift] at hreach
          obtain ⟨i, hi, heq⟩ := List.mem_map.mp hreach
          have := hidsSlots u memOld i (reach_subset_ids hi)
          lia
      · exact hdistinct.refill hbelow (renewSlots_fst thaw slots _)
      · rcases mem_refill mem with mem | ⟨u, memOld, _, rfl⟩
        · exact (hslots _ hle slot mem).2
        · exact isOrderly_shift n (horderly u memOld)

end

/-! ## Writes -/

/-- None of the writes, made one after another, puts an orderly value out of order. -/
def keepsOrder (v : Value) : List Write → Bool
  | [] => true
  | w :: ws => (!v.isOrderly || (v.after w).isOrderly) && (v.after w).keepsOrder ws

section

variable {v : Value} {w : Write} {ws us : List Write}

theorem keepsOrder_cons : v.keepsOrder (w :: ws) = true ↔
    (v.isOrderly = true → (v.after w).isOrderly = true) ∧ (v.after w).keepsOrder ws = true := by
  rw [keepsOrder, Bool.and_eq_true, Bool.or_eq_true, Bool.not_eq_true', imp_iff_not_or,
    Bool.not_eq_true]

theorem keepsOrder_append : v.keepsOrder (ws ++ us) = true ↔
    v.keepsOrder ws = true ∧ (v.afterAll ws).keepsOrder us = true := by
  induction ws generalizing v with
  | nil => simp [keepsOrder]
  | cons w rest ih =>
    rw [List.cons_append, keepsOrder_cons, keepsOrder_cons, ih, afterAll_cons, and_assoc]

theorem isOrderly_afterAll (hv : v.isOrderly = true) (h : v.keepsOrder ws = true) :
    (v.afterAll ws).isOrderly = true := by
  induction ws generalizing v with
  | nil => exact hv
  | cons w rest ih =>
    obtain ⟨hw, hrest⟩ := keepsOrder_cons.mp h
    exact ih (hw hv) hrest

end

end Value

end Redaction
