import Redaction.Proofs.Confinement
import Redaction.Proofs.Reductions

/-!
# After a call

What becomes of the input and the result once a call has returned, while the caller goes on writing
in place and restoring. A write lands in a container within reach of the value it is made through,
and shows wherever else that container stands. Copies share hidden containers with their source:
those of a tag, a snapshot or a view of the input are named `shared` below.

Main statement: `Engine.run_leaves_input_alone`. No call alters its input, and afterwards input and
outcome stay apart: what is done to one is as if the other were not there.
-/

namespace Redaction

inductive Side where
  | input
  | outcome
deriving Repr, DecidableEq

/-- What a caller does after a call: write in place, or restore one of the outcomes with
identities from `next` on. -/
inductive Deed where
  | write (side : Side) (w : Write)
  | restore (index : Nat) (next : Ident)

namespace Deed

def sparesInput : Deed → Bool
  | write .input _ => false
  | _ => true

def inputWrites : List Deed → List Write
  | [] => []
  | write .input w :: rest => w :: inputWrites rest
  | write .outcome _ :: rest | restore _ _ :: rest => inputWrites rest

end Deed

structure Aftermath where
  input : Value
  result : Value
  restored : List Value

/-- `u` and `v` share no container, except that what `v` holds within reach may be one of the
`shared` ones in `u`. -/
abbrev Value.ApartFrom (shared : List Ident) (v u : Value) : Prop :=
  u.Admits (fun id => id ∉ v.ids) fun id => id ∈ v.reach → id ∈ shared

namespace Value

theorem snapshot?_subset {v snapshot : Value} (h : v.snapshot? = some snapshot) :
    snapshot.ids ⊆ v.hidden := by
  cases v with
  | scalar s => simp [snapshot?] at h
  | node id shape tag snap slots =>
    obtain rfl : snap = some snapshot := h
    intro i hi
    unfold hidden
    split <;> simp [idsOption, hi]

theorem restore_eq_ok {v r : Value} {next m : Ident} (h : v.restore next = .ok (r, m)) :
    ∃ snapshot, v.snapshot? = some snapshot ∧ snapshot.canDuplicate = true ∧
      r = (snapshot.renew false next).1 := by
  unfold restore at h
  split at h
  · rename_i snapshot hsnapshot
    unfold duplicate at h
    split at h
    · rename_i hcan
      exact ⟨snapshot, hsnapshot, hcan, (congrArg Prod.fst (Except.ok.inj h)).symm⟩
    · simp at h
  · simp at h

end Value

namespace Aftermath

def start (input result : Value) : Aftermath := ⟨input, result, []⟩

def outcomes (s : Aftermath) : List Value := s.result :: s.restored

def values (s : Aftermath) : List Value := s.input :: s.outcomes

def after (s : Aftermath) (w : Write) : Aftermath where
  input := s.input.after w
  result := s.result.after w
  restored := s.restored.map fun v => v.after w

/-- What restoring one of the outcomes gives; the result is the first of them. -/
def restore (s : Aftermath) (index : Nat) (next : Ident) : Except Failure (Value × Ident) :=
  match s.outcomes[index]? with
  | some v => v.restore next
  | none => .error .notRestorable

/-- One deed. A restore that fails leaves all as it is. -/
def step (s : Aftermath) : Deed → Aftermath
  | .write _ w => s.after w
  | .restore index next =>
    match s.restore index next with
    | .ok (v, _) => { s with restored := s.restored ++ [v] }
    | .error _ => s

def run (s : Aftermath) (deeds : List Deed) : Aftermath := deeds.foldl step s

def Unused (s : Aftermath) (next : Ident) : Prop := ∀ v ∈ s.values, ∀ id ∈ v.ids, id < next

instance (s : Aftermath) (next : Ident) : Decidable (s.Unused next) :=
  inferInstanceAs (Decidable (∀ v ∈ s.values, ∀ id ∈ v.ids, id < next))

/-- Writes land in the value they are made through, and what they store is apart from the other
side. A write into the input lands in none of the shared containers. -/
def Permits (shared : List Ident) (s : Aftermath) : Deed → Prop
  | .write .outcome w => (∃ u ∈ s.outcomes, w.target ∈ u.reach) ∧
      ∀ x ∈ w.content, s.input.ApartFrom shared x
  | .write .input w => w.target ∈ s.input.reach ∧ w.target ∉ shared ∧
      ∀ x ∈ w.content, ∀ u ∈ s.outcomes, x.ApartFrom shared u
  | .restore _ next => s.Unused next

def PermitsAll (shared : List Ident) (s : Aftermath) : List Deed → Prop
  | [] => True
  | deed :: rest => s.Permits shared deed ∧ (s.step deed).PermitsAll shared rest

def Separate (shared : List Ident) (s : Aftermath) : Prop :=
  ∀ u ∈ s.outcomes, s.input.ApartFrom shared u

variable {shared : List Ident} {s : Aftermath}

theorem outcomes_after (s : Aftermath) (w : Write) :
    (s.after w).outcomes = s.outcomes.map fun v => v.after w := rfl

theorem mem_of_restore {index : Nat} {next : Ident} {r : Value × Ident}
    (h : s.restore index next = .ok r) : ∃ u ∈ s.outcomes, u.restore next = .ok r := by
  unfold restore at h
  split at h
  · rename_i u hu
    exact ⟨u, List.mem_of_getElem? hu, h⟩
  · simp at h

theorem input_after_outcome_write {w : Write} (h : s.Separate shared)
    (hw : ∃ u ∈ s.outcomes, w.target ∈ u.reach) : (s.after w).input = s.input := by
  obtain ⟨u, mem, htarget⟩ := hw
  exact Value.after_of_not_mem w s.input ((h u mem).reach _ htarget)

theorem outcomes_after_input_write {w : Write} (h : s.Separate shared)
    (hw : w.target ∈ s.input.reach) (hshared : w.target ∉ shared) :
    (s.after w).outcomes = s.outcomes := by
  rw [outcomes_after]
  refine (List.map_congr_left fun u mem => ?_).trans (List.map_id _)
  refine Value.after_of_not_mem w u fun hid => hshared ?_
  exact (h u mem).ids _ hid hw

/-- A value restored with unused identities is apart from the input if its source is. -/
theorem apartFrom_restore {v u r : Value} {next m : Ident} (hv : ∀ id ∈ v.ids, id < next)
    (hu : ∀ id ∈ u.ids, id < next) (h : v.ApartFrom shared u)
    (hr : u.restore next = .ok (r, m)) : v.ApartFrom shared r := by
  obtain ⟨snapshot, hsnapshot, _, rfl⟩ := Value.restore_eq_ok hr
  have hsub := Value.snapshot?_subset hsnapshot
  have hfresh := (Value.renew_fresh false fun id hid =>
    hu id (Value.hidden_subset_ids (hsub hid))).2
  have hnew : ∀ id, next ≤ id → id ∉ v.ids := fun id hle hid => by
    have := hv id hid
    lia
  constructor
  · intro id hid
    exact hnew id (hfresh.reach id hid).1
  · intro id hid hreach
    rcases Value.mem_ids.mp hid with hid | hid
    · exact absurd (Value.reach_subset_ids hreach) (hnew id (hfresh.reach id hid).1)
    · rcases hfresh.hidden id hid with hid | hid
      · exact h.ids id (Value.hidden_subset_ids (hsub (Value.hidden_subset_ids hid))) hreach
      · exact absurd (Value.reach_subset_ids hreach) (hnew id hid.1)

theorem Separate.step (h : s.Separate shared) {deed : Deed} (hd : s.Permits shared deed) :
    (s.step deed).Separate shared := by
  match deed with
  | .write .outcome w =>
    obtain ⟨hw, hcontent⟩ := hd
    intro u mem
    simp only [Aftermath.step, outcomes_after, input_after_outcome_write h hw] at mem ⊢
    obtain ⟨old, memOld, rfl⟩ := List.mem_map.mp mem
    exact (h old memOld).after hcontent
  | .write .input w =>
    obtain ⟨hw, hshared, hcontent⟩ := hd
    intro u mem
    simp only [Aftermath.step, outcomes_after_input_write h hw hshared] at mem ⊢
    constructor
    · intro id hid hold
      rcases Value.mem_ids_after hold with hold | ⟨x, hx, hold⟩
      · exact (h u mem).reach id hid hold
      · exact (hcontent x hx u mem).reach id hid hold
    · intro id hid hreach
      rcases Value.mem_reach_after hreach with hreach | ⟨x, hx, hreach⟩
      · exact (h u mem).ids id hid hreach
      · exact (hcontent x hx u mem).ids id hid hreach
  | .restore index next =>
    simp only [Aftermath.step]
    split
    case h_2 => exact h
    case h_1 v m hrestore =>
      obtain ⟨u, mem, hrestore⟩ := mem_of_restore hrestore
      have hv := apartFrom_restore (hd s.input (by simp [values]))
        (hd u (List.mem_cons_of_mem _ mem)) (h u mem) hrestore
      intro w memW
      simp only [outcomes, List.mem_cons, List.mem_append, List.not_mem_nil, or_false] at memW
      rcases memW with rfl | memW | rfl
      · exact h _ (by simp [outcomes])
      · exact h w (by simp [outcomes, memW])
      · exact hv

/-- Input and outcome live apart: the input shows only what was written into it, and the outcome is
what it would be had nothing been written into the input. -/
theorem run_apart {deeds : List Deed} {t : Aftermath} (h : s.Separate shared)
    (hd : s.PermitsAll shared deeds) (ht : t.outcomes = s.outcomes) :
    (s.run deeds).input = s.input.afterAll (Deed.inputWrites deeds) ∧
      (s.run deeds).outcomes = (t.run (deeds.filter Deed.sparesInput)).outcomes := by
  induction deeds generalizing s t with
  | nil => exact ⟨rfl, ht.symm⟩
  | cons deed rest ih =>
    obtain ⟨hdeed, hrest⟩ := hd
    have hstep := h.step hdeed
    match deed with
    | .write .outcome w =>
      have htw : (t.after w).outcomes = (s.after w).outcomes := by
        rw [outcomes_after, outcomes_after, ht]
      obtain ⟨hinput, houtcomes⟩ := ih hstep hrest htw
      refine ⟨?_, houtcomes⟩
      rw [Deed.inputWrites, ← input_after_outcome_write h hdeed.1]
      exact hinput
    | .write .input w =>
      have htw : t.outcomes = (s.after w).outcomes := by
        rw [ht, outcomes_after_input_write h hdeed.1 hdeed.2.1]
      exact ih hstep hrest htw
    | .restore index next =>
      have hinput : (s.step (.restore index next)).input = s.input := by
        simp only [Aftermath.step]
        split <;> rfl
      have htw : (t.step (.restore index next)).outcomes =
          (s.step (.restore index next)).outcomes := by
        have hresult : t.result = s.result := (List.cons.inj ht).1
        have hrestored : t.restored = s.restored := (List.cons.inj ht).2
        simp only [Aftermath.step, restore, ht]
        split
        · simp [outcomes, hresult, hrestored]
        · exact ht
      obtain ⟨hrun, houtcomes⟩ := ih hstep hrest htw
      refine ⟨?_, houtcomes⟩
      rw [Deed.inputWrites, ← hinput]
      exact hrun

end Aftermath

theorem Value.Admits.withRestore {P Q : Ident → Prop} {v snapshot : Value} {id : Ident}
    (hw : v.kind.isWritable = true) (h : v.Admits P Q) (hP : P id) (hQ : Q id)
    (hsnapshot : ∀ i ∈ snapshot.ids, Q i) : (v.withRestore snapshot id).Admits P Q := by
  have hkind := isTraversable_of_isWritable hw
  cases v with
  | scalar s => simp [isTraversable_scalar] at hkind
  | node old shape tag snap slots =>
    rw [withRestore_node hkind]
    constructor
    · intro i hi
      obtain ⟨ht, rfl | ⟨slot, mem, hi⟩⟩ := Value.mem_reach_node.mp hi
      · exact hP
      · obtain ⟨u, memOld, hu⟩ := Shape.mem_rebuiltSlots mem
        exact h.reach i (Value.mem_reach_node.mpr ⟨hkind, .inr ⟨u, memOld, hu ▸ hi⟩⟩)
    · intro i hi
      rcases Value.mem_ids_node.mp hi with rfl | ⟨u, hu, hi⟩ | ⟨u, hu, hi⟩ | ⟨slot, mem, hi⟩
      · exact hQ
      · have hu := shape.rebuiltTag_subset tag u hu
        exact h.ids i (Value.mem_ids_node.mpr (.inr (.inl ⟨u, hu, hi⟩)))
      · obtain rfl := Option.some.inj hu
        exact hsnapshot i hi
      · obtain ⟨u, memOld, hu⟩ := Shape.mem_rebuiltSlots mem
        exact h.ids i (Value.mem_ids_node.mpr (.inr (.inr (.inr ⟨u, memOld, hu ▸ hi⟩))))

theorem Censor.Respects.mono {P Q : Ident → Prop} {start m : Ident} {censor : Censor}
    (h : censor.Respects P Q start) (hm : start ≤ m) : censor.Respects P Q m := by
  cases censor with
  | literal x => exact Value.Admits.mono h fun id hid => ⟨hid.1, lt_of_lt_of_le hid.2 hm⟩
  | function f => exact fun history question n x hn => h history question n x (le_trans hm hn)

/-- What the censor answers shares no container with `v`, unless it was told one that does. -/
def Censor.KeepsApartFrom (v : Value) (next : Ident) (censor : Censor) : Prop :=
  censor.Respects (fun id => id ∉ v.ids) (fun id => id ∈ v.reach → id ∈ v.hidden) next

/-- What a writer makes admits `P` and `Q` if what it was given does. -/
def Output.Respects (P Q : Ident → Prop) : Output → Prop
  | .writer f => ∀ u x, u.Admits P Q → f u = .ok x → x.Admits P Q
  | .text | .live => True

/-- What a writer makes shares no container with `v`, unless it was given one that does. -/
def Output.KeepsApartFrom (v : Value) (output : Output) : Prop :=
  output.Respects (fun id => id ∉ v.ids) fun id => id ∈ v.reach → id ∈ v.hidden

namespace Engine

variable {engine : Engine} {v r : Value} {next : Ident}

theorem prepare_eq_ok {working : Value} {snapshot : Option Value} {m : Ident}
    (h : engine.prepare v next = .ok (working, snapshot, m)) :
    v.canDuplicate = true ∧ working = (v.renew true next).1 ∧
      (engine.policy.output = .live ∧
          snapshot = some (v.renew false (v.renew true next).2).1 ∧
          m = (v.renew false (v.renew true next).2).2 ∨
        engine.policy.output ≠ .live ∧ snapshot = none ∧
          m = (v.renew true next).2) := by
  unfold prepare Value.duplicate at h
  by_cases hv : v.canDuplicate = true
  · cases ho : engine.policy.output <;>
      simp only [hv, if_true, ho, bind, Except.bind, pure, Except.pure, Except.ok.injEq,
        Prod.mk.injEq] at h
    all_goals
      obtain ⟨rfl, rfl, rfl⟩ := h
      simp [hv]
  · simp [hv, bind, Except.bind] at h

theorem apartFrom_of_fresh {old : List Ident} {u : Value} {n m : Ident}
    (hv : ∀ id ∈ v.ids, id < n) (hold : old ⊆ v.hidden) (h : u.FreshIn old n m) :
    v.ApartFrom v.hidden u := by
  have hnew : ∀ id, n ≤ id → id ∉ v.ids := fun id hle hid => by
    have := hv id hid
    lia
  constructor
  · intro id hid
    exact hnew id (h.reach id hid).1
  · intro id hid hreach
    have hin := Value.reach_subset_ids hreach
    rcases Value.mem_ids.mp hid with hid | hid
    · exact absurd hin (hnew id (h.reach id hid).1)
    · rcases h.hidden id hid with hid | hid
      · exact hold hid
      · exact absurd hin (hnew id hid.1)

theorem finish_admits {P Q : Ident → Prop} {output : Output} {u : Value}
    (ho : output.Respects P Q) (hu : u.Admits P Q) (h : finish output u = .ok r) :
    r.Admits P Q := by
  cases output with
  | text =>
    cases hj : u.json with
    | error failure => simp [finish, hj, Except.map] at h
    | ok text =>
      simp only [finish, hj, Except.map, Except.ok.injEq] at h
      exact h ▸ Value.Admits.scalar _
  | live =>
    simp only [finish, Except.ok.injEq] at h
    exact h ▸ hu
  | writer f => exact ho u r hu h

theorem run_ends {working : Value} {snapshot : Option Value} {m : Ident}
    (hpass : (engine.policy.strict && !v.kind.isTraversable) = false)
    (hprepare : engine.prepare v next = .ok (working, snapshot, m)) {Q : Workspace → Prop}
    {E : Failure → Workspace → Prop}
    (h : Run.Ends (applyPaths engine.policy.applied engine.paths) (.start working m)
      (fun _ => Q) E) :
    ∃ t : Workspace, (engine.run v next).writes = t.writes.reverse ∧
      (engine.run v next).consultations = t.consultations.reverse ∧
      ((∃ failure, E failure t ∧ (engine.run v next).result = .error failure) ∨
        Q t ∧ (engine.run v next).result = (engine.close snapshot t.root t.next).1) := by
  unfold Run.Ends at h
  cases happly : applyPaths engine.policy.applied engine.paths (.start working m) with
  | error failure t =>
    rw [happly] at h
    simp only [run, hpass, Bool.false_eq_true, if_false, hprepare, happly]
    exact ⟨t, rfl, rfl, .inl ⟨failure, h, rfl⟩⟩
  | ok count t =>
    rw [happly] at h
    simp only [run, hpass, Bool.false_eq_true, if_false, hprepare, happly]
    exact ⟨t, rfl, rfl, .inr ⟨h, rfl⟩⟩

theorem run_leaves {working : Value} {snapshot : Option Value} {m : Ident}
    (hpass : (engine.policy.strict && !v.kind.isTraversable) = false)
    (hprepare : engine.prepare v next = .ok (working, snapshot, m)) {Q E : Workspace → Prop}
    (h : Run.Leaves (applyPaths engine.policy.applied engine.paths) (.start working m)
      (fun _ => Q) E) :
    (∃ s, E s ∧ (engine.run v next).writes = s.writes.reverse ∧
        ∀ r, (engine.run v next).result ≠ .ok r) ∨
      ∃ s, Q s ∧ (engine.run v next).writes = s.writes.reverse ∧
        (engine.run v next).result = (engine.close snapshot s.root s.next).1 := by
  obtain ⟨s, hwrites, _, ⟨failure, hs, hresult⟩ | ⟨hs, hresult⟩⟩ :=
    run_ends hpass hprepare (Run.leaves_iff.mp h)
  · exact .inl ⟨s, hs, hwrites, fun r hr => by simp [hresult] at hr⟩
  · exact .inr ⟨s, hs, hwrites, hresult⟩

/-- A bound on the working copy and on the censor bounds what a call writes into and what it
gives. -/
theorem run_admits {P Q : Ident → Prop} {working : Value} {snapshot : Option Value}
    {start m : Ident} (hpass : (engine.policy.strict && !v.kind.isTraversable) = false)
    (hprepare : engine.prepare v next = .ok (working, snapshot, m))
    (hworking : working.Admits P fun id => Q id ∧ id < m)
    (hsnapshot : ∀ u ∈ snapshot, ∀ id ∈ u.ids, Q id)
    (hnew : ∀ id, m ≤ id → P id ∧ Q id) (hstart : start ≤ m)
    (hcensor : engine.policy.applied.Respects P Q start)
    (houtput : engine.policy.output.Respects P Q) :
    (∀ w ∈ (engine.run v next).writes, P w.target) ∧
      ∀ r, (engine.run v next).result = .ok r → r.Admits P Q := by
  have hconfined : (Workspace.start working m).Confined P Q working m :=
    ⟨rfl, hworking, by simp [Workspace.start], by simp [Workspace.start], le_rfl⟩
  rcases run_leaves hpass hprepare (applyPaths_confined hconfined (hcensor.mono hstart)) with
    ⟨s, hs, hwrites, hfails⟩ | ⟨s, hs, hwrites, hresult⟩
  · rw [hwrites]
    exact ⟨fun w mem => hs.writes w (by simpa using mem), fun r hr => absurd hr (hfails r)⟩
  rw [hwrites, hresult]
  refine ⟨fun w mem => hs.writes w (by simpa using mem), fun r hr => ?_⟩
  have hroot : s.root.Admits P Q := hs.root.mono fun _ hid => hid.1
  have hid := hnew s.next hs.next
  unfold close at hr
  split at hr
  · exact finish_admits houtput hroot hr
  · split at hr
    · rename_i hw
      obtain rfl := Except.ok.inj hr
      exact hroot.withRestore hw hid.1 hid.2 (hsnapshot _ rfl)
    · exact Except.ok.inj hr ▸ hroot

/-- A call writes into no container of its input, whether it returns or fails, and its result is
apart from the input. -/
theorem run_apartFrom (hnext : ∀ id ∈ v.ids, id < next)
    (hcensor : engine.policy.applied.KeepsApartFrom v next)
    (houtput : engine.policy.output.KeepsApartFrom v) :
    (∀ w ∈ (engine.run v next).writes, w.target ∉ v.ids) ∧
      ∀ r, (engine.run v next).result = .ok r → v.ApartFrom v.hidden r := by
  by_cases hpass : (engine.policy.strict && !v.kind.isTraversable) = true
  · have hkind : v.kind.isTraversable = false := by
      simpa using (Bool.and_eq_true_iff.mp hpass).2
    have hself : v.ApartFrom v.hidden v := by
      rw [Value.ApartFrom]
      constructor <;> simp [Value.reach_of_not_traversable hkind]
    simp only [run, hpass, if_true]
    exact ⟨by simp, fun r hr => finish_admits houtput hself hr⟩
  · have hpass : (engine.policy.strict && !v.kind.isTraversable) = false := by simpa using hpass
    cases hprepare : engine.prepare v next with
    | error failure => simp [run, hpass, hprepare]
    | ok begun =>
      obtain ⟨working, snapshot, m⟩ := begun
      obtain ⟨_, rfl, hcases⟩ := prepare_eq_ok hprepare
      obtain ⟨hle, hworking⟩ := Value.renew_fresh true hnext
      have hlater : ∀ id ∈ v.ids, id < (v.renew true next).2 := fun id hid =>
        lt_of_lt_of_le (hnext id hid) hle
      obtain ⟨hle', hcopy⟩ := Value.renew_fresh false hlater
      have hm : (v.renew true next).2 ≤ m := by
        rcases hcases with ⟨_, _, rfl⟩ | ⟨_, _, rfl⟩
        · exact hle'
        · exact le_rfl
      have hapart := apartFrom_of_fresh hnext (List.Subset.refl _) hworking
      have hbound : ∀ id ∈ ((v.renew true next).1).ids, id < m := fun id hid =>
        lt_of_lt_of_le (hworking.ids_lt (fun id hid => hlater id (Value.hidden_subset_ids hid))
          id hid) hm
      refine run_admits hpass hprepare ⟨hapart.reach, fun id hid => ⟨hapart.ids id hid,
        hbound id hid⟩⟩ ?_ (fun id hid => ?_) (le_trans hle hm) hcensor houtput
      · intro u hu
        rcases hcases with ⟨_, rfl, _⟩ | ⟨_, rfl, _⟩
        · obtain rfl := Option.some.inj hu
          exact (apartFrom_of_fresh hlater (List.Subset.refl _) hcopy).ids
        · simp at hu
      · have hnot : id ∉ v.ids := fun hv => by
          have := hnext id hv
          lia
        exact ⟨hnot, fun hreach => absurd (Value.reach_subset_ids hreach) hnot⟩

/-- A call never alters its input, whether it returns or fails. After it, for every sequence of
in-place writes and restores, the input shows exactly the writes that were made into it, and the
result and all that is restored are the same as without these writes. -/
theorem run_leaves_input_alone (hnext : ∀ id ∈ v.ids, id < next)
    (hcensor : engine.policy.applied.KeepsApartFrom v next)
    (houtput : engine.policy.output.KeepsApartFrom v) :
    v.afterAll (engine.run v next).writes = v ∧
      ∀ r, (engine.run v next).result = .ok r →
        ∀ deeds, (Aftermath.start v r).PermitsAll v.hidden deeds →
          ((Aftermath.start v r).run deeds).input = v.afterAll (Deed.inputWrites deeds) ∧
            ((Aftermath.start v r).run deeds).outcomes =
              ((Aftermath.start v r).run (deeds.filter Deed.sparesInput)).outcomes := by
  obtain ⟨hwrites, hresult⟩ := run_apartFrom hnext hcensor houtput
  refine ⟨Value.afterAll_of_not_mem hwrites, fun r hr deeds hdeeds => ?_⟩
  have hseparate : (Aftermath.start v r).Separate v.hidden := by
    intro u mem
    simp only [Aftermath.start, Aftermath.outcomes, List.mem_singleton] at mem
    exact mem ▸ hresult r hr
  exact Aftermath.run_apart hseparate hdeeds rfl

end Engine

namespace Sample

def input : Value := .dict 0
  [(.text "a", .list 1 [.atom (.int 1)]),
    (.text "b", .node 2 (.tuple .plain) none none (indexed [.text "s"]))]

/-- Wraps the first item of the list, and gives the live result. -/
def wrapping : Engine := ⟨{
  paths := ["a[0]"], censor := .wrap, output := .live, strict := true, remove := false
  debug := false, given := [] }⟩

def wrapped : Value := .node 10 (.mapping .plain) none
  (some (.dict 6
    [(.text "a", .list 7 [.atom (.int 1)]),
      (.text "b", .node 8 (.tuple .plain) none none (indexed [.text "s"]))]))
  [(.text "a", .list 4 [.dict 9 [(.text "path", .text "a[0]"), (.text "was", .atom (.int 1))]]),
    (.text "b", .list 5 [.text "s"])]

/-- Writes into the result, restores it, writes into the restored value and into the input. -/
def deeds : List Deed :=
  [.write .outcome ⟨9, .text "was", some .null⟩, .restore 0 20,
    .write .outcome ⟨21, .index 0, none⟩, .write .input ⟨1, .index 0, some (.list 30 [])⟩]

theorem wrap_keepsApart : wrapping.policy.applied.KeepsApartFrom input 3 := by
  intro history question next x hnext htold hx
  obtain rfl := Except.ok.inj hx
  have hquestion := htold question List.mem_cons_self
  have hfresh : ∀ id ∈ input.ids, id < 3 := by decide
  have hnew : next ∉ input.ids := fun hid => absurd hnext (Nat.not_le.mpr (hfresh next hid))
  constructor
  · intro id hid
    obtain ⟨_, rfl | ⟨slot, mem, hid⟩⟩ := Value.mem_reach_node.mp hid
    · exact hnew
    · simp only [List.mem_cons, List.not_mem_nil, or_false] at mem
      rcases mem with rfl | rfl
      · simp [Value.text, Value.atom, Value.reach] at hid
      · exact hquestion.reach id hid
  · intro id hid hreach
    simp only [Value.dict, Value.mem_ids_node] at hid
    rcases hid with rfl | ⟨_, hu, _⟩ | ⟨_, hu, _⟩ | ⟨slot, mem, hid⟩
    · exact absurd (Value.reach_subset_ids hreach) hnew
    · simp at hu
    · simp at hu
    · simp only [List.mem_cons, List.not_mem_nil, or_false] at mem
      rcases mem with rfl | rfl
      · simp [Value.text, Value.atom, Value.ids] at hid
      · exact hquestion.ids id hid hreach

end Sample

/-- A censor that makes containers, followed by writes on both sides of the call. -/
theorem Engine.run_leaves_sample_alone :
    (∀ id ∈ Sample.input.ids, id < 3) ∧
      ((Aftermath.start Sample.input Sample.wrapped).run Sample.deeds).input =
        Sample.input.afterAll [⟨1, .index 0, some (.list 30 [])⟩] ∧
      ((Aftermath.start Sample.input Sample.wrapped).run Sample.deeds).outcomes =
        ((Aftermath.start Sample.input Sample.wrapped).run
          (Sample.deeds.filter Deed.sparesInput)).outcomes := by
  have hnext : ∀ id ∈ Sample.input.ids, id < 3 := by decide
  refine ⟨hnext, ?_⟩
  refine (run_leaves_input_alone hnext Sample.wrap_keepsApart trivial).2 Sample.wrapped rfl
    Sample.deeds ?_
  refine ⟨⟨⟨_, List.mem_cons_self, by decide⟩, fun x hx => ?_⟩, ?_,
    ⟨⟨_, List.mem_cons_of_mem _ List.mem_cons_self, by decide⟩, ?_⟩,
    ⟨by decide, by decide, fun x hx u hu => ?_⟩, trivial⟩
  · exact Option.some.inj hx ▸ Value.Admits.scalar _
  · change Aftermath.Unused _ 20
    decide
  · intro x hx
    cases hx
  · obtain rfl := Option.some.inj hx
    rcases List.mem_cons.mp hu with rfl | hu
    · exact ⟨by decide, by decide⟩
    · obtain rfl := List.mem_singleton.mp hu
      exact ⟨by decide, by decide⟩

namespace Sample

/-- Hands the input on in the place of the redacted copy. -/
def mirroring : Engine := ⟨{
  paths := ["b"], censor := .literal (.text "X"), output := .writer fun _ => .ok input
  strict := true, remove := false, debug := false, given := [] }⟩

/-- A mapping whose tag is the list in its slot. -/
def labelled : Value := .node 0 (.mapping .tagged) (some (.list 1 [.atom (.int 1)])) none
  [(.text "a", .list 1 [.atom (.int 1)]), (.text "b", .null)]

def relabelling : Engine := ⟨{
  paths := ["b"], censor := .literal (.text "X"), output := .live, strict := true
  remove := false, debug := false, given := [] }⟩

/-- What the engine makes of it, with the tag that the input has. -/
def relabelled : Value := .node 6 (.mapping .tagged) (some (.list 1 [.atom (.int 1)]))
  (some (.node 4 (.mapping .tagged) (some (.list 1 [.atom (.int 1)])) none
    [(.text "a", .list 5 [.atom (.int 1)]), (.text "b", .null)]))
  [(.text "a", .list 3 [.atom (.int 1)]), (.text "b", .text "X")]

end Sample

/-- A writer may hand the input on: then a write into the result alters the input. And the list that
is the tag of a mapping is that of its copies too: where it stands in a slot as well, a write into
the input alters the result. -/
theorem Engine.run_shares_input :
    (∀ id ∈ Sample.input.ids, id < 3) ∧
      Sample.mirroring.policy.applied.KeepsApartFrom Sample.input 3 ∧
      (Sample.mirroring.run Sample.input 3).result = .ok Sample.input ∧
      1 ∈ Sample.input.reach ∧
      ((Aftermath.start Sample.input Sample.input).run
        [.write .outcome ⟨1, .index 0, some (.list 20 [])⟩]).input ≠ Sample.input ∧
      (∀ id ∈ Sample.labelled.ids, id < 2) ∧
      Sample.relabelling.policy.applied.KeepsApartFrom Sample.labelled 2 ∧
      (Sample.relabelling.run Sample.labelled 2).result = .ok Sample.relabelled ∧
      1 ∈ Sample.labelled.reach ∧
      ((Aftermath.start Sample.labelled Sample.relabelled).run
        [.write .input ⟨1, .index 0, some (.list 20 [])⟩]).result ≠ Sample.relabelled := by
  refine ⟨by decide, Value.Admits.scalar _, by cbv, by decide, fun h => ?_, by decide,
    Value.Admits.scalar _, by cbv, by decide, fun h => ?_⟩
  · exact absurd (congrArg Value.ids h) (by decide)
  · exact absurd (congrArg Value.ids h) (by decide)

end Redaction
