import Redaction.Proofs.Matches
import Redaction.Proofs.Thawing
import Redaction.Proofs.Turns

/-!
# Accounts of a call

A call that returns has asked its censor about one place after another, and has carried each answer
out before it asked again. The record of these turns accounts for everything the call leaves behind:
its consultations, its writes and the number in its debug line.

Two kinds of turn write nothing. A second wildcard at the end of a path may fill a container that is
empty; that is counted all the same. And a path without wildcard may lead into a tuple. There is
none on its way in a thawed value, but an earlier answer may have brought one in. The censor is
asked about the place, and then it is neither written nor counted.

Main statement: `Engine.run_accounts_for_answers`.
-/

namespace Redaction

/-- A turn of a call: the place that the censor is asked about, the path that it is told, and what
it answers. -/
structure Turn where
  place : Match
  path : String
  answer : Value

namespace Turn

def question (t : Turn) : Consultation := ⟨t.place.value, t.path⟩

def writes (t : Turn) : List Write := t.place.writes t.answer

/-- The turn is one of the redacted places of its call: its container can be written. -/
def isCounted (t : Turn) : Bool := t.place.holder.kind.isWritable

end Turn

/-- The path leads from `v` to a place, about which the censor is asked under the given path, once
the path itself has made some writes. A wildcard goes through the slots that its container has when
it is met; the branches of a container are followed as they are when their turn comes. -/
inductive CompiledPath.LeadsTo (path : CompiledPath) (v : Value) :
    List Write → Match → String → Prop where
  | named {before : List String} {last : String} {holder child : Value} {k : Key}
      (hsegments : path.segments = before ++ [last]) (hwild : path.hasWildcard = false)
      (hholder : v.walk before = .ok (some holder))
      (hslot : holder.slot? last = .ok (some (k, child))) :
      LeadsTo path v [] ⟨k, child, holder, [k]⟩ path.text
  | each {made : List Write} {before : List String} {holder child : Value} {k : Key}
      (hsegments : path.segments = before ++ [Path.wildcard]) (hbefore : Path.wildcard ∉ before)
      (hholder : v.walk before = .ok (some holder)) (hw : holder.kind.isWritable = true)
      (hchild : (k, child) ∈ holder.children) (htakes : Path.takes path.text k = true) :
      LeadsTo path v made ⟨k, child, holder, [k]⟩ (Path.instantiate path.text k.wording)
  | below {made : List Write} {before suffix : List String} {last : String}
      {container branch : Value} {k : Key} {m : Match}
      (hsegments : path.segments = before ++ Path.wildcard :: (suffix ++ [last]))
      (hbefore : Path.wildcard ∉ before) (hcontainer : v.walk before = .ok (some container))
      (hbranch : Slots.get? k (container.afterAll made).children = some branch)
      (hmatch : branch.match? k suffix last = some m) (htakes : Path.takes path.text k = true) :
      LeadsTo path v made m (Path.instantiate path.text k.wording)

inductive CompiledPath.Takes (path : CompiledPath) (v : Value) : List Turn → Prop where
  | nil : Takes path v []
  | concat {own : List Turn} {t : Turn} (hown : Takes path v own)
      (hleads : path.LeadsTo v (own.flatMap Turn.writes) t.place t.path) : Takes path v (own ++ [t])

/-- The turn is one that a call on `origin` may take after the turns `before`: the censor gives this
answer when it has been asked the questions of those, and one of the paths leads to the place. The
path began when the turns `earlier` had been taken, and has taken the turns `own` since then. -/
structure Turn.Fits (f : CensorFunction) (paths : List CompiledPath) (origin : Value)
    (before : List Turn) (t : Turn) : Prop where
  answered : ∃ next, f (before.map Turn.question).reverse t.question next = .ok t.answer
  led : ∃ path ∈ paths, ∃ earlier own, before = earlier ++ own ∧
    path.Takes (origin.afterAll (earlier.flatMap Turn.writes)) own ∧
    path.LeadsTo (origin.afterAll (earlier.flatMap Turn.writes)) (own.flatMap Turn.writes)
      t.place t.path

def Turn.AllFit (f : CensorFunction) (paths : List CompiledPath) (origin : Value)
    (turns : List Turn) : Prop :=
  ∀ before t after, turns = before ++ t :: after → t.Fits f paths origin before

structure Workspace.Accounts (f : CensorFunction) (paths : List CompiledPath) (origin : Value)
    (turns : List Turn) (s : Workspace) : Prop where
  edits : s.root = origin.afterAll (turns.flatMap Turn.writes)
  asked : s.consultations = (turns.map Turn.question).reverse
  writes : s.writes = (turns.flatMap Turn.writes).reverse
  fit : Turn.AllFit f paths origin turns

/-- Further turns account for the workspace, and `count` of them are counted. -/
def Workspace.Adds (f : CensorFunction) (paths : List CompiledPath) (origin : Value)
    (turns : List Turn) (count : Nat) (s : Workspace) : Prop :=
  ∃ more, s.Accounts f paths origin (turns ++ more) ∧ count = more.countP Turn.isCounted

section

variable {f : CensorFunction} {paths : List CompiledPath} {path : CompiledPath} {origin : Value}
  {turns earlier own more before : List Turn} {t : Turn} {s : Workspace} {count : Nat}

/-! ## Turns that write nothing -/

/-- Tuples are the only containers that paths lead through and that cannot be written. -/
theorem Kind.eq_tuple {kind : Kind} (ht : kind.isTraversable = true)
    (hw : kind.isWritable = false) : kind = .tuple := by
  cases kind with
  | tuple => rfl
  | sequence | mapping => cases hw
  | temporal | scalar => cases ht

theorem Turn.isThawed_of_mem_writes (h : ∀ t ∈ turns, t.answer.isThawed = true) :
    ∀ w ∈ turns.flatMap Turn.writes, ∀ x ∈ w.content, x.isThawed = true := by
  intro w mem x hx
  obtain ⟨t, memTurn, mem⟩ := List.mem_flatMap.mp mem
  obtain ⟨k, _, hk⟩ := List.mem_filterMap.mp mem
  obtain ⟨shape, _, _, _, _, _, _, hcontent⟩ := Value.writeTo_eq_some hk
  exact Value.isThawed_settled (h t memTurn) x (hcontent ▸ hx)

/-- A turn that is not counted is one of a path without wildcard that has been led into a tuple,
which an earlier answer has brought in. -/
theorem Turn.Fits.tuple (h : t.Fits f paths origin before) (horigin : origin.isThawed = true)
    (hcount : t.isCounted = false) :
    (∃ path ∈ paths, path.hasWildcard = false ∧ t.path = path.text) ∧
      t.place.holder.kind = .tuple ∧ ∃ a ∈ before, a.answer.isThawed = false := by
  obtain ⟨path, hpath, earlier, own, rfl, _, hleads⟩ := h.led
  obtain ⟨place, text, answer⟩ := t
  generalize own.flatMap Turn.writes = made at hleads
  have hw : place.holder.kind.isWritable = false := hcount
  cases hleads with
  | @named _ _ holder child k hsegments hwild hholder hslot =>
    obtain ⟨j, _, mem⟩ := Value.slot?_mem hslot
    obtain ⟨id, shape, tag, snapshot, slots, rfl, ht, _⟩ := Value.exists_node mem
    refine ⟨⟨path, hpath, hwild, rfl⟩, Kind.eq_tuple ht hw, ?_⟩
    by_contra hnone
    have hall : ∀ a ∈ earlier, a.answer.isThawed = true := fun a mem => by
      by_contra ha
      exact hnone ⟨a, List.mem_append_left own mem, by simpa using ha⟩
    have hthawed := Value.isThawed_walk
      (Value.isThawed_afterAll horigin (Turn.isThawed_of_mem_writes hall)) hholder
    rw [Value.isWritable_of_isThawed hthawed ht] at hw
    cases hw
  | each hsegments hbefore hholder hwritable hchild htakes =>
    rw [hwritable] at hw
    cases hw
  | below hsegments hbefore hcontainer hbranch hmatch htakes =>
    rw [(Value.match?_eq_some hmatch).2.2.1] at hw
    cases hw

/-- A turn that is stored in no slot is one of a path that fills a container, which is empty. -/
theorem Turn.Fits.fills (h : t.Fits f paths origin before) (hkeys : t.place.keys = []) :
    (∃ path ∈ paths, path.fills = true) ∧ t.place.holder.keys = [] := by
  obtain ⟨path, hpath, earlier, own, _, _, hleads⟩ := h.led
  obtain ⟨place, text, answer⟩ := t
  generalize own.flatMap Turn.writes = made at hleads
  cases hleads with
  | named => cases hkeys
  | each => cases hkeys
  | below hsegments hbefore hcontainer hbranch hmatch htakes =>
    obtain ⟨_, _, _, ⟨rfl, hfilled⟩ | ⟨_, found, _, hone⟩⟩ := Value.match?_eq_some hmatch
    · refine ⟨⟨path, hpath, ?_⟩, hfilled.symm.trans hkeys⟩
      rw [CompiledPath.fills, hsegments, Path.drop_dropWhile_before hbefore, List.getLast?_concat]
      exact beq_self_eq_true _
    · cases hone.symm.trans hkeys

/-! ## Taking turns -/

theorem Turn.AllFit.concat (h : Turn.AllFit f paths origin turns)
    (ht : t.Fits f paths origin turns) : Turn.AllFit f paths origin (turns ++ [t]) := by
  intro before u after hsplit
  rcases List.eq_nil_or_concat' after with rfl | ⟨init, last, rfl⟩
  · obtain ⟨rfl, hu⟩ := List.append_inj' hsplit rfl
    exact (List.cons.inj hu).1 ▸ ht
  · have hsplit : turns ++ [t] = (before ++ u :: init) ++ [last] := by simpa using hsplit
    exact h before u init (List.append_inj' hsplit rfl).1

namespace Workspace

theorem Accounts.turn (h : s.Accounts f paths origin turns) {next : Ident}
    (ht : t.Fits f paths origin turns) :
    (Run.written t.writes
      { s with next := next, consultations := t.question :: s.consultations }).Accounts
        f paths origin (turns ++ [t]) := by
  refine ⟨?_, ?_, ?_, h.fit.concat ht⟩
  · rw [List.flatMap_append, Value.afterAll_append, ← h.edits]
    simp [Run.written]
  · simp [Run.written, h.asked]
  · simp [Run.written, h.writes]

theorem Accounts.adds (h : s.Accounts f paths origin turns) : s.Adds f paths origin turns 0 :=
  ⟨[], by rwa [List.append_nil], rfl⟩

theorem Adds.append (h : s.Adds f paths origin (turns ++ more) count) :
    s.Adds f paths origin turns (more.countP Turn.isCounted + count) := by
  obtain ⟨rest, hs, rfl⟩ := h
  exact ⟨more ++ rest, by rwa [← List.append_assoc], List.countP_append.symm⟩

theorem Adds.counted (h : s.Adds f paths origin (turns ++ [t]) count) (ht : t.isCounted = true) :
    s.Adds f paths origin turns (count + 1) := by
  have hone : [t].countP Turn.isCounted = 1 := by simp [ht]
  have happend := h.append
  rwa [hone, Nat.add_comm] at happend

theorem Adds.uncounted (h : s.Adds f paths origin (turns ++ [t]) count)
    (ht : t.isCounted = false) : s.Adds f paths origin turns count := by
  have hnone : [t].countP Turn.isCounted = 0 := by simp [ht]
  have happend := h.append
  rwa [hnone, Nat.zero_add] at happend

end Workspace

end

namespace Run

open Value Workspace

variable {f : CensorFunction} {paths : List CompiledPath} {path : CompiledPath} {origin : Value}
  {turns earlier own : List Turn} {s : Workspace}

/-- Asking about a place that a path leads to, and going on with the answer. If that is carried out,
the turn is on record. -/
theorem replacement_then_accounts {α : Type} {Q : α → Workspace → Prop} {place : Match}
    {text : String} {next : Value → Run α} (hpath : path ∈ paths)
    (hs : s.Accounts f paths origin (earlier ++ own))
    (hown : path.Takes (origin.afterAll (earlier.flatMap Turn.writes)) own)
    (hleads : path.LeadsTo (origin.afterAll (earlier.flatMap Turn.writes))
      (own.flatMap Turn.writes) place text)
    (hnext : ∀ x t, t.root = s.root →
      (written (place.writes x) t).Accounts f paths origin (earlier ++ own ++ [⟨place, text, x⟩]) →
      Ends (next x) t Q fun _ _ => True) :
    Ends ((Censor.function f).replacement place.value text >>= next) s Q fun _ _ => True := by
  rw [ends_bind, Ends]
  cases hreplace : (Censor.function f).replacement place.value text s with
  | error failure t => trivial
  | ok x t =>
    obtain ⟨h, _⟩ | ⟨g, hg, hanswer, rfl⟩ := replacement_cases hreplace
    · cases h
    obtain rfl := Censor.function.inj hg
    rw [hs.asked] at hanswer
    exact hnext x _ rfl
      (hs.turn ⟨⟨s.next, hanswer⟩, path, hpath, earlier, own, rfl, hown, hleads⟩)

theorem replaceEach_accounts {container : Value} {slots : List Slot} (hpath : path ∈ paths)
    (hw : container.kind.isWritable = true)
    (hleads : ∀ slot ∈ slots, Path.takes path.text slot.1 = true → ∀ made,
      path.LeadsTo (origin.afterAll (earlier.flatMap Turn.writes)) made
        ⟨slot.1, slot.2, container, [slot.1]⟩ (Path.instantiate path.text slot.1.wording))
    (hown : path.Takes (origin.afterAll (earlier.flatMap Turn.writes)) own)
    (hs : s.Accounts f paths origin (earlier ++ own)) :
    Ends (replaceEach (.function f) path.text container slots) s
      (Adds f paths origin (earlier ++ own)) fun _ _ => True := by
  induction slots generalizing s own with
  | nil => exact hs.adds
  | cons slot rest ih =>
    obtain ⟨key, v⟩ := slot
    obtain ⟨hfirst, hrest⟩ := List.forall_mem_cons.mp hleads
    rw [replaceEach]
    refine leaves_replacementAt (fun htakes => ?_) trivial
    have hplace := hfirst htakes
    refine replacement_then_accounts hpath hs hown (hplace _) fun x t _ ht => ?_
    have hwrites : (container.writeTo key x).toList =
        Match.writes ⟨key, v, container, [key]⟩ x :=
      (writes_singleton (m := ⟨key, v, container, [key]⟩) rfl x).symm
    rw [hwrites, ends_performAll, ends_bind]
    rw [List.append_assoc] at ht
    refine (ih hrest (hown.concat (hplace _)) ht).mono fun count u hu => ?_
    rw [← List.append_assoc] at hu
    exact hu.counted hw

theorem replaceBelow_accounts {suffix : List String} {last : String} {container : Value}
    {keys : List Key} (hpath : path ∈ paths)
    (hleads : ∀ made k branch m, Slots.get? k (container.afterAll made).children = some branch →
      branch.match? k suffix last = some m → Path.takes path.text k = true →
      path.LeadsTo (origin.afterAll (earlier.flatMap Turn.writes)) made m
        (Path.instantiate path.text k.wording))
    (hown : path.Takes (origin.afterAll (earlier.flatMap Turn.writes)) own)
    (hs : s.Accounts f paths origin (earlier ++ own)) :
    Ends (replaceBelow (.function f) path.text suffix last
        (container.afterAll (own.flatMap Turn.writes)) keys) s
      (Adds f paths origin (earlier ++ own)) fun _ _ => True := by
  induction keys generalizing s own with
  | nil => exact hs.adds
  | cons key rest ih =>
    rw [replaceBelow]
    cases hbranch : Slots.get? key (container.afterAll (own.flatMap Turn.writes)).children with
    | none => trivial
    | some branch =>
      dsimp only
      cases haffected : affected? branch suffix last with
      | error failure => trivial
      | ok found =>
        obtain rfl := affected?_eq_ok key haffected
        rw [ends_bind, ends_ok]
        cases hmatch : branch.match? key suffix last with
        | none => exact ih hown hs
        | some m =>
          refine leaves_replacementAt (fun htakes => ?_) trivial
          have hplace := hleads _ _ _ _ hbranch hmatch htakes
          refine replacement_then_accounts hpath hs hown hplace fun x t _ ht => ?_
          rw [overwrite_match hmatch, ends_bind, ends_ok]
          dsimp only
          rw [ends_performAll, ends_bind]
          let turn : Turn := ⟨m, Path.instantiate path.text key.wording, x⟩
          have hafter : (container.afterAll (own.flatMap Turn.writes)).afterAll (m.writes x) =
              container.afterAll ((own ++ [turn]).flatMap Turn.writes) := by
            simp [turn, afterAll_append, Turn.writes]
          rw [hafter]
          rw [List.append_assoc] at ht
          refine (ih (hown.concat hplace) ht).mono fun count u hu => ?_
          rw [← List.append_assoc] at hu
          exact hu.counted (match?_eq_some hmatch).2.2.1

theorem expand_accounts (hpath : path ∈ paths) (hwild : path.hasWildcard = true)
    (hs : s.Accounts f paths origin turns) :
    Ends (expand (.function f) path.text path.segments) s (Adds f paths origin turns)
      fun _ _ => True := by
  obtain ⟨before, rest, hsegments, hbefore⟩ :=
    List.eq_append_cons_of_mem (List.contains_iff_mem.mp hwild)
  rw [Ends, hsegments, Engine.expand_eq hbefore]
  cases hfound : s.root.find? before with
  | error failure => trivial
  | ok found =>
    cases found with
    | none => exact hs.adds
    | some container =>
      have hwalk := (find?_eq_some.mp hfound).1
      rw [hs.edits] at hwalk
      show Ends (Engine.expandAt _ _ _ _) s _ _
      rw [← List.append_nil turns] at hs ⊢
      unfold Engine.expandAt
      rcases List.eq_nil_or_concat' rest with rfl | ⟨suffix, last, rfl⟩
      · rw [List.getLast?_nil]
        dsimp only
        split
        · rename_i hw
          exact replaceEach_accounts hpath hw
            (fun slot mem htakes made => .each hsegments hbefore hwalk hw mem htakes) .nil hs
        · exact hs.adds
      · rw [List.getLast?_concat, List.dropLast_concat]
        exact replaceBelow_accounts hpath
          (fun made k branch m hbranch hmatch htakes =>
            .below hsegments hbefore hwalk hbranch hmatch htakes) .nil hs

theorem replaceAt_accounts (hpath : path ∈ paths) (hwild : path.hasWildcard = false)
    (hs : s.Accounts f paths origin turns) :
    Ends (replaceAt (.function f) path.text path.segments) s (Adds f paths origin turns)
      fun _ _ => True := by
  unfold replaceAt
  rw [ends_bind, ends_root]
  cases hfound : s.root.find? path.segments with
  | error failure => trivial
  | ok found =>
    rw [ends_bind, ends_ok]
    cases found with
    | none => exact hs.adds
    | some v =>
      rcases List.eq_nil_or_concat' path.segments with hnil | ⟨before, last, hsegments⟩
      · rw [hnil, ends_bind, Ends]
        split <;> trivial
      have hlast : last ≠ Path.wildcard := by
        rintro rfl
        simp [CompiledPath.hasWildcard, hsegments] at hwild
      rw [hsegments] at hfound ⊢
      obtain ⟨holder, k, hholder, hslot⟩ := walk_concat_eq_some (find?_eq_some.mp hfound).1
      have hnamed : path.LeadsTo s.root [] ⟨k, v, holder, [k]⟩ path.text :=
        .named hsegments hwild hholder hslot
      rw [hs.edits] at hnamed
      rw [← List.append_nil turns] at hs ⊢
      refine replacement_then_accounts hpath hs .nil hnamed fun x t hroot ht => ?_
      rw [ends_bind, ends_root, hroot, overwrite_append hholder (by simp),
        overwrite_singleton hlast hslot, ends_bind, ends_ok]
      cases hw : holder.kind.isWritable with
      | true =>
        have hwrites : (holder.writeTo k x).toList = Match.writes ⟨k, v, holder, [k]⟩ x :=
          (writes_singleton (m := ⟨k, v, holder, [k]⟩) rfl x).symm
        rw [if_pos rfl, hwrites]
        exact ends_performAll.mpr (ht.adds.counted hw)
      | false =>
        rw [Match.writes_of_not_writable hw] at ht
        exact ht.adds.uncounted hw

end Run

namespace Engine

open Run Workspace

section

variable {f : CensorFunction} {paths : List CompiledPath} {origin : Value} {turns : List Turn}
  {s : Workspace}

theorem applyPath_accounts {path : CompiledPath} (hpath : path ∈ paths)
    (hs : s.Accounts f paths origin turns) :
    Ends (applyPath (.function f) path) s (Adds f paths origin turns) fun _ _ => True := by
  unfold applyPath
  split
  · rename_i hwild
    exact expand_accounts hpath hwild hs
  · rename_i hwild
    exact replaceAt_accounts hpath (by simpa using hwild) hs

theorem applyPaths_accounts {rest : List CompiledPath} (hrest : rest ⊆ paths)
    (hs : s.Accounts f paths origin turns) :
    Ends (applyPaths (.function f) rest) s (Adds f paths origin turns) fun _ _ => True := by
  induction rest generalizing s turns with
  | nil => exact hs.adds
  | cons path rest ih =>
    obtain ⟨hpath, hrest⟩ := List.cons_subset.mp hrest
    rw [applyPaths, ends_bind]
    refine (applyPath_accounts hpath hs).mono fun count t ht => ?_
    obtain ⟨more, ht, rfl⟩ := ht
    rw [ends_bind]
    exact (ih hrest ht).mono fun count u hu => hu.append

end

variable {engine : Engine} {f : CensorFunction} {v r : Value} {next : Ident}

theorem run_takes_turns (hcensor : engine.policy.censor = .function f)
    (hremove : engine.policy.remove = false) (hv : v.kind.isTraversable = true)
    (hr : (engine.run v next).result = .ok r) :
    ∃ turns : List Turn,
      (engine.run v next).consultations = turns.map Turn.question ∧
      (engine.run v next).writes = turns.flatMap Turn.writes ∧
      (engine.run v next).lines = engine.note ("Redacted " ++
        Text.decimal 1 (turns.countP Turn.isCounted) ++ " location(s) for " ++
        Text.decimal 1 engine.paths.length ++ " path(s)") ∧
      Turn.AllFit f engine.paths (v.renew true next).1 turns := by
  have hpass : (engine.policy.strict && !v.kind.isTraversable) = false := by simp [hv]
  have happlied : engine.policy.applied = .function f := by simp [Policy.applied, hremove, hcensor]
  cases hprepare : engine.prepare v next with
  | error failure => simp [run, hpass, hprepare] at hr
  | ok prepared =>
    obtain ⟨working, snapshot, m⟩ := prepared
    obtain ⟨_, rfl, _⟩ := prepare_eq_ok hprepare
    have hstart : (Workspace.start (v.renew true next).1 m).Accounts f engine.paths
        (v.renew true next).1 [] := ⟨rfl, rfl, rfl, by simp [Turn.AllFit]⟩
    have hends := applyPaths_accounts (List.Subset.refl engine.paths) hstart
    rw [Ends] at hends
    cases happly : applyPaths (.function f) engine.paths (.start (v.renew true next).1 m) with
    | error failure t => simp [run, hpass, hprepare, happlied, happly] at hr
    | ok count t =>
      rw [happly] at hends
      obtain ⟨turns, ht, rfl⟩ := hends
      rw [List.nil_append] at ht
      simp only [run, hpass, hprepare, happlied, happly, Bool.false_eq_true, if_false]
      refine ⟨turns, ?_, ?_, rfl, ht.fit⟩
      · rw [ht.asked, List.reverse_reverse]
      · rw [ht.writes, List.reverse_reverse]

/-- The censor is consulted for what is then overwritten, as the number in the debug line says. In a
call that returns each question belongs to a turn at a place that one of the paths leads to, and
unless that place is in a tuple the answer is stored in all its slots and the turn is counted. A
place in a tuple is neither written nor counted; only a path without wildcard leads there, after an
answer that is not thawed. If all answers are thawed, there are as many questions as places counted.
A place without slots is an empty container that a path was to fill. -/
theorem run_accounts_for_answers (hcensor : engine.policy.censor = .function f)
    (hremove : engine.policy.remove = false) (hv : v.kind.isTraversable = true)
    (hr : (engine.run v next).result = .ok r) :
    ∃ turns : List Turn,
      (engine.run v next).consultations = turns.map Turn.question ∧
      (engine.run v next).writes = turns.flatMap Turn.writes ∧
      (engine.run v next).lines = engine.note ("Redacted " ++
        Text.decimal 1 (turns.countP Turn.isCounted) ++ " location(s) for " ++
        Text.decimal 1 engine.paths.length ++ " path(s)") ∧
      (∀ before t after, turns = before ++ t :: after →
        t.Fits f engine.paths (v.renew true next).1 before ∧
        (t.isCounted = true → ∃ id, t.place.holder.ident? = some id ∧
          t.writes = t.place.keys.map fun k =>
            ⟨id, k, Value.settled t.place.holder.kind t.answer⟩) ∧
        (t.isCounted = false → t.writes = [] ∧ t.place.holder.kind = .tuple ∧
          (∃ path ∈ engine.paths, path.hasWildcard = false ∧ t.path = path.text) ∧
          ∃ a ∈ before, a.answer.isThawed = false) ∧
        (t.place.keys = [] → t.place.holder.keys = [] ∧
          ∃ path ∈ engine.paths, path.fills = true)) ∧
      ((∀ t ∈ turns, t.answer.isThawed = true) →
        turns.countP Turn.isCounted = (engine.run v next).consultations.length) := by
  obtain ⟨turns, hasked, hwrites, hlines, hfit⟩ := run_takes_turns hcensor hremove hv hr
  have hworking := Value.isThawed_renew v next
  refine ⟨turns, hasked, hwrites, hlines, fun before t after hsplit => ?_, fun hthawed => ?_⟩
  · have ht := hfit before t after hsplit
    refine ⟨ht, fun hcount => Match.writes_of_writable hcount t.answer, fun hcount => ?_,
      fun hkeys => (ht.fills hkeys).symm⟩
    obtain ⟨hpath, htuple, hbefore⟩ := ht.tuple hworking hcount
    exact ⟨Match.writes_of_not_writable hcount t.answer, htuple, hpath, hbefore⟩
  · rw [hasked, List.length_map, List.countP_eq_length]
    intro t mem
    obtain ⟨before, after, hsplit⟩ := List.append_of_mem mem
    by_contra hcount
    obtain ⟨_, _, a, memBefore, ha⟩ :=
      (hfit before t after hsplit).tuple hworking (by simpa using hcount)
    have hanswer := hthawed a (hsplit ▸ List.mem_append_left _ memBefore)
    simp [hanswer] at ha

end Engine

namespace Sample

/-- A mapping of a number and of a mapping that holds an empty one. -/
def vacancies : Value := .dict 0
  [(.text "a", .atom (.int 1)), (.text "b", .dict 1 [(.text "c", .dict 2 [])])]

def shelve : CensorFunction := fun _ question next =>
  .ok (.node next (.tuple .plain) none none (indexed [question.value]))

/-- Puts the number into a tuple, then looks for it there, and fills what is empty. -/
def shelver : Engine := ⟨{
  paths := ["a", "a[0]", "b.*.*"], censor := .function shelve, output := .live, strict := true
  remove := false, debug := true, given := [.paths, .censor, .output, .debug] }⟩

end Sample

/-- Three questions, two places counted, one write. One of the answers is not thawed. -/
theorem Engine.run_accounts_for_answers_vacancies :
    Sample.shelver.policy.censor = .function Sample.shelve ∧
      Sample.shelver.policy.remove = false ∧ Sample.vacancies.kind.isTraversable = true ∧
      (∃ r, (Sample.shelver.run Sample.vacancies 3).result = .ok r) ∧
      (Sample.shelver.run Sample.vacancies 3).lines =
        ["[slow-redact] Redacted 2 location(s) for 3 path(s)"] ∧
      ∃ turns : List Turn,
        (Sample.shelver.run Sample.vacancies 3).consultations = turns.map Turn.question ∧
        turns.length = 3 ∧ (turns.flatMap Turn.writes).length = 1 ∧
        ∃ t ∈ turns, t.answer.isThawed = false := by
  have hlines : (Sample.shelver.run Sample.vacancies 3).lines =
      ["[slow-redact] Redacted 2 location(s) for 3 path(s)"] := by cbv
  have hasked : (Sample.shelver.run Sample.vacancies 3).consultations.length = 3 := by cbv
  have hmade : (Sample.shelver.run Sample.vacancies 3).writes.length = 1 := by cbv
  obtain ⟨r, hr⟩ : ∃ r, (Sample.shelver.run Sample.vacancies 3).result = .ok r := ⟨_, rfl⟩
  obtain ⟨turns, hquestions, hwrites, hcount, _, hthawed⟩ :=
    run_accounts_for_answers rfl rfl rfl hr
  refine ⟨rfl, rfl, rfl, ⟨r, hr⟩, hlines, turns, hquestions, ?_, ?_, ?_⟩
  · rw [← hasked, hquestions, List.length_map]
  · rw [← hwrites, hmade]
  · by_contra hnone
    have hall : ∀ t ∈ turns, t.answer.isThawed = true := fun t mem => by
      by_contra ht
      exact hnone ⟨t, mem, by simpa using ht⟩
    -- three places would have been counted
    rw [hthawed hall, hasked, hlines] at hcount
    have hthree : Sample.shelver.note ("Redacted " ++ Text.decimal 1 3 ++ " location(s) for " ++
        Text.decimal 1 Sample.shelver.paths.length ++ " path(s)") =
          ["[slow-redact] Redacted 3 location(s) for 3 path(s)"] := by cbv
    rw [hthree] at hcount
    exact absurd hcount (by decide)

end Redaction
