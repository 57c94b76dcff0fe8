import Redaction.Proofs.Rendering
import Redaction.Proofs.Substitution

/-!
# Redacted values do not show

With replacements that do not depend on what they replace, nothing of a value in an overwritten
slot comes through to the text of the result: any other value in its place gives the same text.

Containers are told apart by their identities, and writes name containers, so a slot counts as
overwritten if a write lands in the container at its position in the working copy, under its key.
-/

namespace Redaction

namespace Value

def ident? : Value → Option Ident
  | scalar _ => none
  | node id _ _ _ _ => some id

section

variable {v u w : Value} {position other : List Key} {strides : List Stride}
  {x : Option Key → Value}

theorem mem_ids_of_ident? {id : Ident} (h : v.ident? = some id) : id ∈ v.ids := by
  cases v with
  | scalar s => simp [ident?] at h
  | node i shape tag snapshot slots =>
    obtain rfl := Option.some.inj h
    exact mem_ids_node.mpr (.inl rfl)

theorem mem_reach_of_ident? {id : Ident} (ht : v.kind.isTraversable = true)
    (h : v.ident? = some id) : id ∈ v.reach := by
  cases v with
  | scalar s => simp [ident?] at h
  | node i shape tag snapshot slots =>
    obtain rfl := Option.some.inj h
    exact mem_reach_node.mpr ⟨ht, .inl rfl⟩

@[simp] theorem ident?_withSlots {f : Key → Value → Option Value} :
    (v.withSlots f).ident? = v.ident? := by
  cases v <;> rfl

theorem exists_child {k : Key} (h : v.at? (k :: position) = some u) :
    ∃ j child, j.same k = true ∧ (j, child) ∈ v.children ∧ child.at? position = some u := by
  obtain ⟨child, hchild, hu⟩ := Option.bind_eq_some_iff.mp h
  obtain ⟨j, hj, mem⟩ := get?_mem hchild
  exact ⟨j, child, hj, mem, hu⟩

theorem at?_subset (h : v.at? position = some u) : u.reach ⊆ v.reach ∧ u.ids ⊆ v.ids := by
  induction position generalizing v with
  | nil =>
    obtain rfl := Option.some.inj h
    exact ⟨List.Subset.refl _, List.Subset.refl _⟩
  | cons k rest ih =>
    obtain ⟨j, child, _, mem, hu⟩ := exists_child h
    have hchild := child_subset mem
    have hbelow := ih hu
    exact ⟨List.Subset.trans hbelow.1 hchild.1, List.Subset.trans hbelow.2 hchild.2⟩

theorem IsTree.child (h : v.IsTree) {a : Slot} (ha : a ∈ v.children) : a.2.IsTree := by
  obtain ⟨i, shape, tag, snapshot, slots, rfl, ht, ha⟩ := exists_node ha
  exact h.slot ht ha

theorem IsTree.ident_not_mem_child (h : v.IsTree) {a : Slot} (ha : a ∈ v.children) {id : Ident}
    (hid : v.ident? = some id) : id ∉ a.2.ids := by
  obtain ⟨i, shape, tag, snapshot, slots, rfl, ht, ha⟩ := exists_node ha
  obtain rfl := Option.some.inj hid
  exact h.ident_not_mem ht ha

theorem IsTree.eq_of_mem (h : v.IsTree) {a b : Slot} (ha : a ∈ v.children)
    (hb : b ∈ v.children) {id : Ident} (hida : id ∈ a.2.ids) (hidb : id ∈ b.2.reach) : a = b := by
  obtain ⟨i, shape, tag, snapshot, slots, rfl, ht, ha⟩ := exists_node ha
  rw [children_node ht] at hb
  by_contra hne
  exact h.branches_apart ht hb ha (Ne.symm hne) id hidb hida

theorem IsTree.same_position (h : v.IsTree) {id : Ident} (hu : v.at? position = some u)
    (hw : v.at? other = some w) (ht : w.kind.isTraversable = true) (hidu : u.ident? = some id)
    (hidw : w.ident? = some id) : Same position other := by
  induction position generalizing v other with
  | nil =>
    obtain rfl := Option.some.inj hu
    cases other with
    | nil => exact .nil
    | cons k rest =>
      obtain ⟨j, child, _, mem, hbelow⟩ := exists_child hw
      have hin := (at?_subset hbelow).2 (mem_ids_of_ident? hidw)
      exact absurd hin (h.ident_not_mem_child mem hidu)
  | cons k rest ih =>
    obtain ⟨j, child, hj, mem, hbelow⟩ := exists_child hu
    have hin := (at?_subset hbelow).2 (mem_ids_of_ident? hidu)
    cases other with
    | nil =>
      obtain rfl := Option.some.inj hw
      exact absurd hin (h.ident_not_mem_child mem hidw)
    | cons k' rest' =>
      obtain ⟨j', child', hj', mem', hbelow'⟩ := exists_child hw
      have hreach := (at?_subset hbelow').1 (mem_reach_of_ident? ht hidw)
      obtain ⟨rfl, rfl⟩ := Prod.mk.inj (h.eq_of_mem mem mem' hin hreach)
      have hkey := Key.same_trans (Key.same_comm j k ▸ hj) hj'
      exact .cons hkey (ih (h.child mem) hbelow hbelow')

/-- The containers of a redacted value that paths lead to stand where they stood before. -/
theorem at?_redactAlong (hx : ∀ l, (x l).kind.isTraversable = false) (hkeys : v.isWellKeyed = true)
    (h : (v.redactAlong strides x).at? position = some u) (ht : u.kind.isTraversable = true) :
    ∃ old, v.at? position = some old ∧ old.kind = u.kind ∧ old.ident? = u.ident? := by
  refine redactAlong_induction (fun y => y.kind.isTraversable = false)
    (fun v v' => v.isWellKeyed = true → ∀ position, v'.at? position = some u →
      ∃ old, v.at? position = some old ∧ old.kind = u.kind ∧ old.ident? = u.ident?)
    (fun v _ position h => ⟨u, h, rfl, rfl⟩) (fun v f hslots hkeys position h => ?_)
    hx hkeys position h
  cases position with
  | nil =>
    obtain rfl := Option.some.inj h
    exact ⟨v, rfl, kind_withSlots.symm, ident?_withSlots.symm⟩
  | cons k rest =>
    obtain ⟨j, child, hj, mem, hbelow⟩ := exists_child h
    rw [children_withSlots] at mem
    obtain ⟨⟨name, old⟩, memOld, hslot⟩ := List.mem_filterMap.mp mem
    obtain ⟨w, hw, heq⟩ := Option.map_eq_some_iff.mp hslot
    obtain ⟨rfl, rfl⟩ := Prod.mk.inj heq
    rw [at?_cons (distinct_children hkeys) memOld hj]
    rcases hslots _ memOld w hw with hkept | ⟨y, kind, hy, hsettled⟩
    · exact hkept (everywhere_child hkeys memOld) rest hbelow
    · -- no path leads into a replacement
      have hnone := isTraversable_settled hy hsettled
      cases rest with
      | nil =>
        obtain rfl := Option.some.inj hbelow
        simp [hnone] at ht
      | cons k' rest =>
        obtain ⟨_, _, _, mem, _⟩ := exists_child hbelow
        simp [children_of_not_traversable hnone] at mem

/-- A write along strides lands in a container whose slot under its key the strides address. -/
theorem exists_addressed {write : Write} (hkeys : v.isWellKeyed = true)
    (h : write ∈ writesAlong strides x v) : ∃ position u k, v.at? position = some u ∧
      u.kind.isTraversable = true ∧ u.ident? = some write.target ∧ k.same write.key = true ∧
      v.addresses strides (position ++ [k]) = true := by
  induction strides generalizing x v with
  | nil => simp [writesAlong] at h
  | cons stride rest ih =>
    cases rest with
    | nil =>
      obtain ⟨slot, mem, hwrite⟩ := List.mem_filterMap.mp h
      obtain ⟨found, hfound, hwrite⟩ := Option.bind_eq_some_iff.mp hwrite
      have hsame : slot.1.same found = true := Key.same_comm _ _ ▸ Stride.same_of_finds? hfound
      have haddress : v.addresses [stride] [slot.1] = true := by
        rw [addresses, Stride.leads, hfound]
        rfl
      obtain ⟨i, shape, tag, snapshot, slots, rfl, ht, _⟩ := exists_node mem
      simp only [writeTo] at hwrite
      split at hwrite
      · obtain rfl := Option.some.inj hwrite
        exact ⟨[], _, slot.1, rfl, ht, rfl, hsame, haddress⟩
      · simp at hwrite
    | cons next rest =>
      obtain ⟨⟨j, child⟩, mem, hwrite⟩ := List.mem_flatMap.mp h
      have hdistinct := distinct_children hkeys
      split at hwrite
      · rename_i hleads
        obtain ⟨position, u, k, hat, ht, hid, hkey, haddress⟩ :=
          ih (everywhere_child hkeys mem) hwrite
        refine ⟨j :: position, u, k, ?_, ht, hid, hkey, ?_⟩
        · rw [at?_cons hdistinct mem (Key.same_refl j)]
          exact hat
        · rw [List.cons_append, addresses_cons hdistinct mem, hleads, haddress]
          rfl
      · simp at hwrite

end

section

variable {answer : String → Value} {paths : List CompiledPath} {v u : Value} {position : List Key}

theorem isWellKeyed_redactAll (hx : ∀ text, (answer text).kind.isTraversable = false)
    (h : v.isWellKeyed = true) : (v.redactAll answer paths).isWellKeyed = true := by
  induction paths generalizing v with
  | nil => exact h
  | cons path rest ih =>
    exact ih (isWellKeyed_redactAlong (answersAt_not_traversable hx path.text) h)

theorem at?_redactAll (hx : ∀ text, (answer text).kind.isTraversable = false)
    (hkeys : v.isWellKeyed = true) (h : (v.redactAll answer paths).at? position = some u)
    (ht : u.kind.isTraversable = true) :
    ∃ old, v.at? position = some old ∧ old.kind = u.kind ∧ old.ident? = u.ident? := by
  induction paths generalizing v with
  | nil => exact ⟨u, h, rfl, rfl⟩
  | cons path rest ih =>
    have hx' := answersAt_not_traversable hx path.text
    obtain ⟨mid, hmid, hkind, hid⟩ := ih (isWellKeyed_redactAlong hx' hkeys) h
    obtain ⟨old, hold, hkind', hid'⟩ := at?_redactAlong hx' hkeys hmid (hkind ▸ ht)
    exact ⟨old, hold, hkind'.trans hkind, hid'.trans hid⟩

/-- Where a write lands, the path along which it is made leads in what those before it have left. -/
theorem exists_path_of_madeAlong {w : Write} {k : Key}
    (hx : ∀ text, (answer text).kind.isTraversable = false) (hv : v.Editable)
    (hu : v.at? position = some u) (hid : u.ident? = some w.target) (hk : w.key.same k = true)
    (h : Engine.MadeAlong answer paths v w) :
    ∃ done path rest, paths = done ++ path :: rest ∧ (v.redactAll answer done).addresses
      (Path.strides path.segments) (position ++ [k]) = true := by
  obtain ⟨done, path, rest, hpaths, hmade⟩ := h
  refine ⟨done, path, rest, hpaths, ?_⟩
  have hkeys := @isWellKeyed_redactAll answer done v hx hv.keyed
  obtain ⟨other, target, j, hat, ht, htarget, hj, haddress⟩ := exists_addressed hkeys hmade
  obtain ⟨old, hold, hkind, hident⟩ := at?_redactAll hx hv.keyed hat ht
  have hsame : Same position other :=
    hv.same_position hu hold (hkind ▸ ht) hid (hident.trans htarget)
  have hkey : k.same j = true := by
    rw [Key.same_comm]
    exact Key.same_trans hj hk
  have hslot : Same (position ++ [k]) (other ++ [j]) :=
    List.rel_append hsame (.cons hkey .nil)
  rw [addresses_congr hslot]
  exact haddress

end

end Value

namespace Engine

variable {engine : Engine} {v r r' y : Value} {next next' : Ident} {position : List Key} {k : Key}
  {answer : String → Value}

/-- The call writes the slot at a position, under the key: it replaces or deletes what it holds. -/
def Overwrites (engine : Engine) (v : Value) (next : Ident) (position : List Key) (k : Key) :
    Prop :=
  ∃ u, (v.renew true next).1.at? position = some u ∧
    ∃ w ∈ (engine.run v next).writes, u.ident? = some w.target ∧ w.key.same k = true

theorem close_text_congr {snapshot snapshot' : Option Value} {root root' : Value} {n n' : Ident}
    (htext : engine.policy.output = .text) (hnone : snapshot = none) (hnone' : snapshot' = none)
    (hcontent : root.content = root'.content) :
    (engine.close snapshot root n).1 = (engine.close snapshot' root' n').1 := by
  subst hnone hnone'
  simp only [close, finish, htext]
  rw [← Value.json_content root, hcontent, Value.json_content]

/-- Where a call writes along paths only, a slot that it overwrites may as well hold another value:
both redact to the same. -/
theorem redactAll_of_overwrites (hkeys : v.isWellKeyed = true) (hkeyed : v.isKeyedByValue = true)
    (hnext : ∀ id ∈ v.ids, id < next)
    (hold : ∀ old ∈ v.at? (position ++ [k]), old.isMissing = false) (hy : y.isMissing = false)
    (hx : ∀ text, (answer text).kind.isTraversable = false)
    (hmade : ∀ w ∈ (engine.run v next).writes,
      MadeAlong answer engine.paths (v.renew true next).1 w)
    (hover : engine.Overwrites v next position k) :
    v.thawed.redactAll answer engine.paths =
      (v.setAt (position ++ [k]) y).thawed.redactAll answer engine.paths := by
  obtain ⟨u, hu, w, mem, hid, hk⟩ := hover
  have hedit := Value.renew_editable hnext hkeyed hkeys
  obtain ⟨done, path, rest, hpaths, haddress⟩ :=
    Value.exists_path_of_madeAlong hx hedit hu hid hk (hmade w mem)
  have hthawed : (v.thawed.redactAll answer done).addresses (Path.strides path.segments)
      (position ++ [k]) = true := by
    have hcopy : (v.renew true next).1.content = v.thawed := Value.content_renew hkeyed
    rw [← hcopy, ← Value.content_redactAll hx, Value.addresses_likeness]
    exact haddress
  have hkeys' : v.thawed.isWellKeyed = true := by
    rw [Value.thawed, Value.isWellKeyed_likeness]
    exact hkeys
  rcases Value.redactAll_differAt hx hkeys' (Value.differAt_thawed hold hy) with heq | hnot
  · exact heq
  · simp [hnot done path rest hpaths] at hthawed

/-- Redacted values do not influence the text of a result. For replacements that depend on the path
only, whatever stands in a slot that a call overwrites or deletes, the text is the same. -/
theorem run_ignores_redacted (hkind : v.kind.isTraversable = true)
    (hkeys : v.isWellKeyed = true) (hkeyed : v.isKeyedByValue = true)
    (hnext : ∀ id ∈ v.ids, id < next)
    (hkeys' : (v.setAt (position ++ [k]) y).isWellKeyed = true)
    (hkeyed' : (v.setAt (position ++ [k]) y).isKeyedByValue = true)
    (hnext' : ∀ id ∈ (v.setAt (position ++ [k]) y).ids, id < next')
    (hold : ∀ old ∈ v.at? (position ++ [k]), old.isMissing = false) (hy : y.isMissing = false)
    (hblind : engine.policy.applied.IsBlind answer)
    (hx : ∀ text, (answer text).kind.isTraversable = false)
    (hanswer : ∀ text, ∀ id ∈ (answer text).ids, id < next ∧ id < next')
    (htext : engine.policy.output = .text) (hover : engine.Overwrites v next position k)
    (hr : (engine.run v next).result = .ok r)
    (hr' : (engine.run (v.setAt (position ++ [k]) y) next').result = .ok r') : r = r' := by
  have hkind' : (v.setAt (position ++ [k]) y).kind.isTraversable = true := by
    cases position with
    | nil => rw [List.nil_append, Value.kind_setAt, hkind]
    | cons j rest => rw [List.cons_append, Value.kind_setAt, hkind]
  obtain ⟨root, snapshot, n, hclose, hlive, _, _, hroot, hmade⟩ :=
    run_redacts hkind hnext hkeyed hkeys hblind hx (fun text id hid => (hanswer text id hid).1) hr
  obtain ⟨root', snapshot', n', hclose', hlive', _, _, hroot', _⟩ :=
    run_redacts hkind' hnext' hkeyed' hkeys' hblind hx
      (fun text id hid => (hanswer text id hid).2) hr'
  have hnone : snapshot = none := by
    simpa [htext] using hlive
  have hnone' : snapshot' = none := by
    simpa [htext] using hlive'
  have hcontent : root.content = root'.content := by
    rw [hroot, hroot']
    exact redactAll_of_overwrites hkeys hkeyed hnext hold hy hx hmade hover
  have hresult := @close_text_congr engine snapshot snapshot' root root' n n' htext hnone hnone'
    hcontent
  rw [hclose, hclose'] at hresult
  exact Except.ok.inj hresult

end Engine

namespace Sample

/-- A mapping with a number that is to be masked. -/
def secret : Value := .dict 0
  [(.text "a", .dict 1 [(.text "x", .atom (.int 1))]), (.text "b", .atom (.int 2))]

def other : Value := .dict 2 [(.text "q", .atom (.int 5))]

/-- Masks what may be found in place of the number, then the number. -/
def veiling : Engine := ⟨{
  paths := ["a.x.q", "a.*"], censor := .literal (.text "X"), output := .text
  strict := true, remove := false, debug := false, given := [] }⟩

def veiled : Value := .text "\x7b\"a\": \x7b\"x\": \"X\"\x7d, \"b\": 2\x7d"

end Sample

theorem Engine.run_ignores_secret :
    Sample.secret.kind.isTraversable = true ∧ Sample.secret.isWellKeyed = true ∧
      Sample.secret.isKeyedByValue = true ∧ (∀ id ∈ Sample.secret.ids, id < 2) ∧
      Sample.veiling.Overwrites Sample.secret 2 [.text "a"] (.text "x") ∧
      ∃ r r', (Sample.veiling.run Sample.secret 2).result = .ok r ∧
        (Sample.veiling.run (Sample.secret.setAt [.text "a", .text "x"] Sample.other) 3).result =
          .ok r' ∧ r = r' := by
  have hkeys : Sample.secret.isWellKeyed = true := by decide
  have hids : ∀ id ∈ Sample.secret.ids, id < 2 := by decide
  have hkeys' : (Sample.secret.setAt [.text "a", .text "x"] Sample.other).isWellKeyed = true := by
    decide
  have hids' : ∀ id ∈ (Sample.secret.setAt [.text "a", .text "x"] Sample.other).ids, id < 3 := by
    decide
  have hwrites : (Sample.veiling.run Sample.secret 2).writes =
      [⟨3, .text "x", some (.text "X")⟩] := by cbv
  have hover : Sample.veiling.Overwrites Sample.secret 2 [.text "a"] (.text "x") :=
    ⟨.dict 3 [(.text "x", .atom (.int 1))], by cbv, _, hwrites ▸ List.mem_singleton_self _, rfl,
      by decide⟩
  have hr : (Sample.veiling.run Sample.secret 2).result = .ok Sample.veiled := by cbv
  have hr' : (Sample.veiling.run
      (Sample.secret.setAt [.text "a", .text "x"] Sample.other) 3).result = .ok Sample.veiled := by
    cbv
  refine ⟨rfl, hkeys, rfl, hids, hover, Sample.veiled, Sample.veiled, hr, hr', ?_⟩
  refine @run_ignores_redacted Sample.veiling Sample.secret _ _ Sample.other 2 3 [.text "a"]
    (.text "x") (fun _ => .text "X") rfl hkeys rfl hids hkeys' (by decide) hids' ?_ rfl
    (fun _ => rfl) (fun _ => rfl) ?_ rfl hover hr hr'
  · intro old hold
    obtain rfl : Value.atom (.int 1) = old := Option.some.inj hold
    rfl
  · simp [Value.text, Value.atom, Value.ids]

end Redaction
