import Redaction.Engine
import Redaction.Proofs.Labels
import Redaction.Proofs.Reach

/-!
# Confined runs

What a run writes into and what it brings within reach. A run is judged by `Run.Leaves`, which
covers both endings, so everything proved here holds of failing runs too. The invariant is
`Workspace.Confined`: the value under edit admits a bound, and so does every container that was
written. A censor keeps the invariant when its answers admit the bound, as far as what it was told
does.
-/

namespace Redaction

namespace Run

variable {α β : Type}

/-- The run ends in a workspace in which `Q` holds of its result, or `E` of its failure. -/
def Ends (m : Run α) (s : Workspace) (Q : α → Workspace → Prop)
    (E : Failure → Workspace → Prop) : Prop :=
  match m s with
  | .ok a s' => Q a s'
  | .error failure s' => E failure s'

/-- The run leaves a workspace in which `Q` holds of its result, or in which `E` holds if it
fails. -/
def Leaves (m : Run α) (s : Workspace) (Q : α → Workspace → Prop) (E : Workspace → Prop) : Prop :=
  match m s with
  | .ok a s' => Q a s'
  | .error _ s' => E s'

section

variable {s : Workspace} {Q : α → Workspace → Prop} {R : β → Workspace → Prop}
  {E : Failure → Workspace → Prop}

@[simp] theorem ends_root {Q : Value → Workspace → Prop} : Ends root s Q E ↔ Q s.root s := Iff.rfl

@[simp] theorem ends_ok {a : α} : Ends (ofExcept (.ok a)) s Q E ↔ Q a s := Iff.rfl

theorem ends_bind {m : Run α} {f : α → Run β} :
    Ends (m >>= f) s R E ↔ Ends m s (fun a s' => Ends (f a) s' R E) E := by
  simp only [Ends, bind, EStateM.bind]
  cases m s <;> rfl

theorem Ends.imp {m : Run α} {Q' : α → Workspace → Prop} {E' : Failure → Workspace → Prop}
    (h : Ends m s Q E) (hQ : ∀ a s', Q a s' → Q' a s') (hE : ∀ e s', E e s' → E' e s') :
    Ends m s Q' E' := by
  unfold Ends at *
  cases hm : m s with
  | ok a s' => rw [hm] at h; exact hQ a s' h
  | error failure s' => rw [hm] at h; exact hE failure s' h

theorem Ends.mono {m : Run α} {Q' : α → Workspace → Prop} (h : Ends m s Q E)
    (hQ : ∀ a s', Q a s' → Q' a s') : Ends m s Q' E :=
  h.imp hQ fun _ _ => id

end

variable {s : Workspace} {Q : α → Workspace → Prop} {R : β → Workspace → Prop}
  {E : Workspace → Prop}

theorem leaves_iff {m : Run α} : Leaves m s Q E ↔ Ends m s Q fun _ => E := Iff.rfl

@[simp] theorem leaves_pure {a : α} : Leaves (pure a) s Q E ↔ Q a s := Iff.rfl

@[simp] theorem leaves_throw {failure : Failure} : Leaves (throw failure) s Q E ↔ E s := Iff.rfl

@[simp] theorem leaves_root {Q : Value → Workspace → Prop} : Leaves root s Q E ↔ Q s.root s :=
  Iff.rfl

theorem leaves_bind {m : Run α} {f : α → Run β} :
    Leaves (m >>= f) s R E ↔ Leaves m s (fun a s' => Leaves (f a) s' R E) E := by
  simp only [leaves_iff, ends_bind]

theorem Leaves.mono {m : Run α} {Q' : α → Workspace → Prop} (h : Leaves m s Q E)
    (hQ : ∀ a s', Q a s' → Q' a s') : Leaves m s Q' E :=
  Ends.mono h hQ

/-- A run that asks the censor about a labelled place asks at the concrete path, or has ended. -/
theorem ends_replacementAt {censor : Censor} {v : Value} {path : String} {key : Key}
    {f : Value → Run β} {s : Workspace} {R : β → Workspace → Prop} {E : Failure → Workspace → Prop}
    (htakes : Path.takes path key = true →
      Ends (censor.replacement v (Path.instantiate path key.wording) >>= f) s R E)
    (hlong : Path.takes path key ≠ true → E .longInteger s) :
    Ends (censor.replacementAt v path key >>= f) s R E := by
  by_cases h : Path.takes path key = true
  · rw [Censor.replacementAt_of_takes h]
    exact htakes h
  · simp only [Ends, bind, EStateM.bind, Censor.replacementAt_of_not_takes h]
    exact hlong h

theorem leaves_replacementAt {censor : Censor} {v : Value} {path : String} {key : Key}
    {f : Value → Run β} {s : Workspace} {R : β → Workspace → Prop} {E : Workspace → Prop}
    (htakes : Path.takes path key = true →
      Leaves (censor.replacement v (Path.instantiate path key.wording) >>= f) s R E)
    (hlong : E s) : Leaves (censor.replacementAt v path key >>= f) s R E :=
  ends_replacementAt htakes fun _ => hlong

theorem leaves_ofExcept {x : Except Failure α} (hok : ∀ a, x = .ok a → Q a s) (herror : E s) :
    Leaves (ofExcept x) s Q E := by
  cases x with
  | ok a => exact hok a rfl
  | error failure => exact herror

end Run

structure Write.Within (P Q : Ident → Prop) (w : Write) : Prop where
  target : P w.target
  content : ∀ x ∈ w.content, x.Admits P Q

namespace Value.Admits

variable {P Q R : Ident → Prop} {v x : Value}

theorem settled (kind : Kind) (h : x.Admits P Q) : ∀ y ∈ settled kind x, y.Admits P Q := by
  intro y hy
  unfold Value.settled at hy
  split at hy
  · split at hy
    · simp at hy
    · obtain rfl := Option.some.inj hy
      exact scalar _
  · obtain rfl := Option.some.inj hy
    exact h

theorem writeTo (h : v.Admits P R) (hx : x.Admits P Q) {k : Key} {w : Write}
    (hw : v.writeTo k x = some w) : w.Within P Q := by
  refine ⟨h.target hw, ?_⟩
  cases v with
  | scalar s => simp [Value.writeTo] at hw
  | node id shape tag snapshot slots =>
    simp only [Value.writeTo] at hw
    split at hw
    · obtain rfl := Option.some.inj hw
      exact hx.settled _
    · simp at hw

theorem writesAt (h : v.Admits P R) (hx : x.Admits P Q) {last : String} {ws : List Write}
    (hws : v.writesAt last x = .ok (some ws)) : ∀ w ∈ ws, w.Within P Q := by
  intro w mem
  unfold Value.writesAt at hws
  split at hws
  · simp at hws
  · split at hws
    · simp only [Except.ok.injEq, Option.some.injEq] at hws
      subst hws
      obtain ⟨k, _, hk⟩ := List.mem_filterMap.mp mem
      exact h.writeTo hx hk
    · cases hs : v.slot? last with
      | error e => simp [hs, Except.map] at hws
      | ok slot =>
        cases slot with
        | none => simp [hs, Except.map] at hws
        | some slot =>
          simp only [hs, Except.map, Option.map_some, Except.ok.injEq, Option.some.injEq] at hws
          subst hws
          exact h.writeTo hx (by simpa using mem)

theorem overwrite (h : v.Admits P R) (hx : x.Admits P Q) {segments : List String}
    {ws : List Write} (hws : v.overwrite segments x = .ok (some ws)) :
    ∀ w ∈ ws, w.Within P Q := by
  unfold Value.overwrite at hws
  split at hws
  · simp at hws
  · split at hws
    · simp at hws
    · simp at hws
    · rename_i hwalk
      exact (h.walk hwalk).writesAt hx hws

theorem mono (h : v.Admits P Q) {Q' : Ident → Prop} (hQ : ∀ id, Q id → Q' id) : v.Admits P Q' :=
  ⟨h.reach, fun id hid => hQ id (h.ids id hid)⟩

theorem afterAll (h : v.Admits P Q) {ws : List Write}
    (hws : ∀ w ∈ ws, ∀ x ∈ w.content, x.Admits P Q) : (v.afterAll ws).Admits P Q := by
  induction ws generalizing v with
  | nil => exact h
  | cons w rest ih =>
    exact ih (h.after (hws w List.mem_cons_self)) fun u mem => hws u (List.mem_cons_of_mem _ mem)

theorem get? (h : v.Admits P Q) {u : Value} {k : Key} (hu : Slots.get? k v.children = some u) :
    u.Admits P Q := by
  obtain ⟨j, _, mem⟩ := get?_mem hu
  exact h.child mem

end Value.Admits

/-- The value under edit is what `origin` has become by the writes. It admits `P` and `Q` and holds
no unused identity, every container that was written satisfies `P`, and so does all that the censor
was told. -/
structure Workspace.Confined (P Q : Ident → Prop) (origin : Value) (start : Ident)
    (s : Workspace) : Prop where
  edits : s.root = origin.afterAll s.writes.reverse
  root : s.root.Admits P fun id => Q id ∧ id < s.next
  writes : ∀ w ∈ s.writes, P w.target
  told : ∀ c ∈ s.consultations, c.value.Admits P Q
  next : start ≤ s.next

/-- The answers of the censor admit `P` and `Q` if all that it was told does, and a replacement
that is there from the start holds no unused identity. -/
def Censor.Respects (P Q : Ident → Prop) (start : Ident) : Censor → Prop
  | .literal x => x.Admits P fun id => Q id ∧ id < start
  | .function f => ∀ history question next x, start ≤ next →
      (∀ c ∈ question :: history, c.value.Admits P Q) →
      f history question next = .ok x → x.Admits P Q

def Censor.ids : Censor → List Ident
  | .literal v => v.ids
  | .function _ => []

theorem Censor.respects_of_ids {start : Ident} {censor : Censor}
    (h : ∀ id ∈ censor.ids, id < start) :
    censor.Respects (fun _ => True) (fun _ => True) start := by
  cases censor with
  | literal x => exact ⟨fun _ _ => trivial, fun id hid => ⟨trivial, h id hid⟩⟩
  | function f => exact fun _ _ _ _ _ _ _ => ⟨fun _ _ => trivial, fun _ _ => trivial⟩

namespace Value

theorem lt_foldl_bound {ids : List Nat} {start : Nat} :
    start ≤ ids.foldl (fun bound id => max bound (id + 1)) start ∧
      ∀ id ∈ ids, id < ids.foldl (fun bound id => max bound (id + 1)) start := by
  induction ids generalizing start with
  | nil => simp
  | cons first rest ih =>
    obtain ⟨hstart, hrest⟩ := @ih (max start (first + 1))
    simp only [List.foldl_cons, List.mem_cons, forall_eq_or_imp]
    exact ⟨by omega, by omega, hrest⟩

theorem lt_bound {v : Value} {id : Ident} (h : id ∈ v.ids) : id < v.bound :=
  lt_foldl_bound.2 id h

end Value

namespace Run

open Workspace

variable {P Q : Ident → Prop} {origin : Value} {start : Ident} {s : Workspace} {censor : Censor}

/-- One consultation keeps a workspace confined, and its answer may be written. -/
theorem replacement_confined (h : s.Confined P Q origin start) (hc : censor.Respects P Q start)
    {v : Value} (hv : v.Admits P Q) (path : String) :
    Leaves (censor.replacement v path) s
      (fun x s' => s'.Confined P Q origin start ∧ x.Admits P fun id => Q id ∧ id < s'.next)
      (fun s' => s'.Confined P Q origin start) := by
  cases censor with
  | literal x =>
    refine ⟨h, hc.mono fun id hid => ⟨hid.1, ?_⟩⟩
    exact lt_of_lt_of_le hid.2 h.next
  | function f =>
    have htold : ∀ c ∈ (⟨v, path⟩ : Consultation) :: s.consultations, c.value.Admits P Q := by
      intro c mem
      rcases List.mem_cons.mp mem with rfl | mem
      · exact hv
      · exact h.told c mem
    have hasked : ({ s with consultations := ⟨v, path⟩ :: s.consultations } :
        Workspace).Confined P Q origin start := ⟨h.edits, h.root, h.writes, htold, h.next⟩
    cases hf : f s.consultations ⟨v, path⟩ s.next with
    | error failure =>
      simp only [Leaves, Censor.replacement, bind, EStateM.bind, get, getThe, MonadStateOf.get,
        EStateM.get, set, EStateM.set, hf, ofExcept]
      exact hasked
    | ok x =>
      have hx := hc _ _ _ x h.next htold hf
      simp only [Leaves, Censor.replacement, bind, EStateM.bind, get, getThe, MonadStateOf.get,
        EStateM.get, set, EStateM.set, hf, ofExcept]
      refine ⟨⟨h.edits, ?_, h.writes, htold, ?_⟩, ?_⟩
      · exact h.root.mono fun id hid => ⟨hid.1, lt_of_lt_of_le hid.2 (le_max_left _ _)⟩
      · exact le_trans h.next (le_max_left _ _)
      · refine ⟨hx.reach, fun id hid => ⟨hx.ids id hid, ?_⟩⟩
        exact lt_of_lt_of_le (Value.lt_bound hid) (le_max_right _ _)

theorem perform_confined (h : s.Confined P Q origin start) {w : Write}
    (hw : w.Within P fun id => Q id ∧ id < s.next) :
    Leaves (perform w) s (fun _ s' => s'.Confined P Q origin start ∧ s'.next = s.next)
      (fun s' => s'.Confined P Q origin start) := by
  refine ⟨⟨?_, h.root.after hw.content, fun u mem => ?_, h.told, h.next⟩, rfl⟩
  · rw [List.reverse_cons, Value.afterAll_append, ← h.edits]
    rfl
  · rcases List.mem_cons.mp mem with rfl | mem
    · exact hw.target
    · exact h.writes u mem

theorem performAll_confined {ws : List Write} (h : s.Confined P Q origin start)
    (hws : ∀ w ∈ ws, w.Within P fun id => Q id ∧ id < s.next) :
    Leaves (performAll ws) s (fun _ s' => s'.Confined P Q origin start)
      (fun s' => s'.Confined P Q origin start) := by
  induction ws generalizing s with
  | nil => exact h
  | cons w rest ih =>
    rw [performAll, leaves_bind]
    refine (perform_confined h (hws w List.mem_cons_self)).mono fun _ s' hs' => ?_
    refine ih hs'.1 fun u mem => ?_
    rw [hs'.2]
    exact hws u (List.mem_cons_of_mem _ mem)

/-- A consultation about `v` and the writes that its answer leads to keep a workspace confined. -/
theorem replacement_then_confined {α : Type} (h : s.Confined P Q origin start)
    (hc : censor.Respects P Q start) {v : Value} (hv : v.Admits P Q) (path : String)
    {next : Value → Run α}
    (hnext : ∀ (x : Value) (s' : Workspace), s'.Confined P Q origin start →
      (x.Admits P fun id => Q id ∧ id < s'.next) →
      Leaves (next x) s' (fun _ s' => s'.Confined P Q origin start)
        (fun s' => s'.Confined P Q origin start)) :
    Leaves (censor.replacement v path >>= next) s (fun _ s' => s'.Confined P Q origin start)
      (fun s' => s'.Confined P Q origin start) := by
  rw [leaves_bind]
  exact (replacement_confined h hc hv path).mono fun x s' hs' => hnext x s' hs'.1 hs'.2

theorem replaceEach_confined {path : String} {container : Value} {slots : List Slot}
    (h : s.Confined P Q origin start) (hc : censor.Respects P Q start)
    (hcontainer : container.Admits P Q) (hslots : ∀ slot ∈ slots, slot.2.Admits P Q) :
    Leaves (replaceEach censor path container slots) s (fun _ s' => s'.Confined P Q origin start)
      (fun s' => s'.Confined P Q origin start) := by
  induction slots generalizing s with
  | nil => exact h
  | cons slot rest ih =>
    obtain ⟨key, v⟩ := slot
    rw [replaceEach]
    refine leaves_replacementAt (fun _ => ?_) h
    refine replacement_then_confined h hc (hslots _ List.mem_cons_self) _ fun x s' hs' hx => ?_
    rw [leaves_bind]
    have hws : ∀ w ∈ (container.writeTo key x).toList,
        w.Within P fun id => Q id ∧ id < s'.next := by
      intro w mem
      exact hcontainer.writeTo hx (by simpa using mem)
    refine (performAll_confined hs' hws).mono fun _ t ht => ?_
    rw [leaves_bind]
    exact ih ht fun slot mem => hslots slot (List.mem_cons_of_mem _ mem)

theorem affected?_admits {branch v : Value} {suffix : List String} {last : String}
    (h : branch.Admits P Q) (hv : affected? branch suffix last = .ok (some v)) :
    v.Admits P Q := by
  unfold affected? at hv
  split at hv
  · simp at hv
  · simp at hv
  · rename_i container hfind
    have hcontainer := h.walk (Value.find?_eq_some.mp hfind).1
    split at hv
    · simp at hv
    · split at hv
      · simp only [Except.ok.injEq, Option.some.injEq] at hv
        exact hv ▸ hcontainer
      · exact hcontainer.walk (Value.find?_eq_some.mp hv).1

theorem replaceBelow_confined {path : String} {suffix : List String} {last : String}
    {container : Value} {keys : List Key} (h : s.Confined P Q origin start)
    (hc : censor.Respects P Q start) (hcontainer : container.Admits P Q) :
    Leaves (replaceBelow censor path suffix last container keys) s
      (fun _ s' => s'.Confined P Q origin start) (fun s' => s'.Confined P Q origin start) := by
  induction keys generalizing s container with
  | nil => exact h
  | cons key rest ih =>
    rw [replaceBelow]
    split
    · exact h
    · rename_i branch hbranch
      have hbranch := hcontainer.get? hbranch
      rw [leaves_bind]
      refine leaves_ofExcept (fun found hfound => ?_) h
      cases found with
      | none => exact ih h hcontainer
      | some v =>
        refine leaves_replacementAt (fun _ => ?_) h
        refine replacement_then_confined h hc (affected?_admits hbranch hfound) _
          fun x s' hs' hx => ?_
        rw [leaves_bind]
        refine leaves_ofExcept (fun writes hwrites => ?_) hs'
        cases writes with
        | none => exact ih hs' hcontainer
        | some ws =>
          have hws := hbranch.overwrite hx hwrites
          simp only
          rw [leaves_bind]
          refine (performAll_confined hs' hws).mono fun _ t ht => ?_
          rw [leaves_bind]
          refine ih ht ?_
          exact hcontainer.afterAll fun w mem y hy =>
            ((hws w mem).content y hy).mono fun _ hid => hid.1

theorem expand_confined {path : String} {segments : List String}
    (h : s.Confined P Q origin start) (hc : censor.Respects P Q start) :
    Leaves (expand censor path segments) s (fun _ s' => s'.Confined P Q origin start)
      (fun s' => s'.Confined P Q origin start) := by
  have hroot : s.root.Admits P Q := h.root.mono fun _ hid => hid.1
  unfold expand
  split
  · exact h
  rw [leaves_bind, leaves_root, leaves_bind]
  refine leaves_ofExcept (fun found hfound => ?_) h
  cases found with
  | none => exact h
  | some container =>
    have hcontainer := hroot.walk (Value.find?_eq_some.mp hfound).1
    dsimp only
    split
    · split
      · exact replaceEach_confined h hc hcontainer fun slot mem => hcontainer.child mem
      · exact h
    · exact replaceBelow_confined h hc hcontainer

theorem replaceAt_confined {path : String} {segments : List String}
    (h : s.Confined P Q origin start) (hc : censor.Respects P Q start) :
    Leaves (replaceAt censor path segments) s (fun _ s' => s'.Confined P Q origin start)
      (fun s' => s'.Confined P Q origin start) := by
  have hroot : s.root.Admits P Q := h.root.mono fun _ hid => hid.1
  unfold replaceAt
  rw [leaves_bind, leaves_root, leaves_bind]
  refine leaves_ofExcept (fun found hfound => ?_) h
  cases found with
  | none => exact h
  | some v =>
    have hv := hroot.walk (Value.find?_eq_some.mp hfound).1
    refine replacement_then_confined h hc hv _ fun x s' hs' hx => ?_
    rw [leaves_bind, leaves_root, leaves_bind]
    refine leaves_ofExcept (fun writes hwrites => ?_) hs'
    cases writes with
    | none => exact hs'
    | some ws =>
      dsimp only
      rw [leaves_bind]
      exact performAll_confined hs' (hs'.root.overwrite hx hwrites)

end Run

namespace Engine

open Run

variable {P Q : Ident → Prop} {origin : Value} {start : Ident} {s : Workspace} {censor : Censor}

/-- Applying one path keeps a workspace confined, whether it succeeds or fails. -/
theorem applyPath_confined {path : CompiledPath} (h : s.Confined P Q origin start)
    (hc : censor.Respects P Q start) :
    Leaves (applyPath censor path) s (fun _ s' => s'.Confined P Q origin start)
      (fun s' => s'.Confined P Q origin start) := by
  unfold applyPath
  split
  · exact expand_confined h hc
  · exact replaceAt_confined h hc

/-- Applying all paths keeps a workspace confined, whether it succeeds or fails. -/
theorem applyPaths_confined {paths : List CompiledPath} (h : s.Confined P Q origin start)
    (hc : censor.Respects P Q start) :
    Leaves (applyPaths censor paths) s (fun _ s' => s'.Confined P Q origin start)
      (fun s' => s'.Confined P Q origin start) := by
  induction paths generalizing s with
  | nil => exact h
  | cons path rest ih =>
    rw [applyPaths, leaves_bind]
    refine (applyPath_confined h hc).mono fun _ s' hs' => ?_
    rw [leaves_bind]
    exact (ih hs').mono fun _ _ ht => ht

end Engine

end Redaction
