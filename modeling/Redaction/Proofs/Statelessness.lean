import Redaction.Session
import Redaction.Proofs.Confinement

/-!
# What persists in an engine

An engine is its policy, and nothing of a call is kept in it. The one part of a policy that can
change at all is a literal censor that is a container: results hold that same container, so a write
into a result, or one that a later path makes below an earlier one, can land in it.

`World.engine_run` says what an engine is after any session: as it was configured, except that its
literal shows all the writes of the session. Main statement: `World.call_after_any_session`. If none
of the writes lands in the literal, a further call is like that of an engine configured anew.
-/

namespace Redaction

/-- The writes that an edit makes, in order, whether it returns or fails. -/
def Run.writesOn {α : Type} (action : Run α) (v : Value) (next : Ident) : List Write :=
  match action (.start v next) with
  | .ok _ s | .error _ s => s.writes.reverse

namespace Engine

@[simp] theorem afterAll_nil (e : Engine) : e.afterAll [] = e := by
  unfold afterAll
  split
  next v hv =>
    obtain ⟨policy⟩ := e
    simp only at hv
    rw [Value.afterAll_nil, ← hv]
  next => rfl

theorem map_afterAll_nil (e : Except Failure Engine) : e.map (afterAll []) = e := by
  cases e with
  | error failure => rfl
  | ok e => rw [Except.map, afterAll_nil]

theorem afterAll_append (ws us : List Write) (e : Engine) :
    e.afterAll (ws ++ us) = (e.afterAll ws).afterAll us := by
  unfold afterAll
  cases hv : e.policy.censor with
  | literal v => simp only [Value.afterAll_append]
  | function f => simp only [hv]

theorem afterAll_of_not_mem {ws : List Write} {e : Engine}
    (h : ∀ w ∈ ws, w.target ∉ e.policy.censor.ids) : e.afterAll ws = e := by
  unfold afterAll
  split
  next v hv =>
    rw [hv] at h
    obtain ⟨policy⟩ := e
    simp only at hv
    rw [Value.afterAll_of_not_mem h, ← hv]
  next => rfl

end Engine

/-- The step gives a name to an engine, if it succeeds. -/
def Step.namesEngine (name : String) : Step → Bool
  | configure other _ _ | derive other _ _ _ => other = name
  | _ => false

namespace World

/-- The writes that a step makes, in order, whether it succeeds or fails. -/
def writes (world : World) : Step → List Write
  | .call engine argument _ =>
    match world.engine engine, world.value argument with
    | .ok e, .ok v => (e.run v world.next).writes
    | _, _ => []
  | .overwrite target segments v =>
    match world.value target with
    | .ok root => (overwriting segments v).writesOn root world.next
    | .error _ => []
  | .expand target path segments censor =>
    match world.value target with
    | .ok root => (Run.expand censor path segments).writesOn root world.next
    | .error _ => []
  | .store w => [w]
  | _ => []

def writesAll (world : World) : List Step → List Write
  | [] => []
  | step :: rest => world.writes step ++ (world.step step).2.writesAll rest

section

variable {world : World} {name : String}

theorem engine_setEngine_self (e : Engine) : (world.setEngine name e).engine name = .ok e := by
  simp [engine, setEngine]

theorem engine_setEngine_of_ne {other : String} (h : other ≠ name) (e : Engine) :
    (world.setEngine other e).engine name = world.engine name := by
  have hlookup : ∀ engines : List (String × Engine),
      (engines.filter (·.1 ≠ other)).lookup name = engines.lookup name := by
    intro engines
    induction engines with
    | nil => rfl
    | cons entry rest ih =>
      obtain ⟨key, old⟩ := entry
      by_cases hkey : key = other
      · rw [List.filter_cons_of_neg (by simp [hkey]), ih, List.lookup_cons, hkey,
          beq_false_of_ne h.symm]
      · rw [List.filter_cons_of_pos (by simp [hkey]), List.lookup_cons, List.lookup_cons, ih]
  simp only [engine, setEngine, List.lookup_cons, beq_false_of_ne h.symm, hlookup]

theorem engine_afterAll (ws : List Write) :
    (world.afterAll ws).engine name = (world.engine name).map (Engine.afterAll ws) := by
  obtain ⟨next, values, engines⟩ := world
  simp only [engine, afterAll]
  induction engines with
  | nil => rfl
  | cons entry rest ih =>
    obtain ⟨key, e⟩ := entry
    by_cases hkey : name = key
    · simp [hkey, Except.map]
    · simpa [List.lookup_cons, beq_false_of_ne hkey] using ih

theorem engine_call (e : Engine) (v : Value) (result : String) :
    (world.call e v result).2.engine name =
      (world.engine name).map (Engine.afterAll (e.run v world.next).writes) := by
  rw [← engine_afterAll]
  simp only [call]
  split <;> rfl

theorem engine_edit {α : Type} (v : Value) (action : Run α) (report : α → Report) :
    (world.edit v action report).2.engine name =
      (world.engine name).map (Engine.afterAll (action.writesOn v world.next)) := by
  rw [← engine_afterAll]
  simp only [edit, Run.writesOn]
  cases action (.start v world.next) <;> rfl

theorem engine_storeResult (result : String) (made : Except Failure (Value × Ident)) :
    (world.storeResult result made).2.engine name = world.engine name := by
  rcases made with _ | ⟨v, m⟩ <;> rfl

theorem engine_storeEngine {other : String} (h : other ≠ name) (made : Except Failure Engine) :
    (world.storeEngine other made).2.engine name = world.engine name := by
  cases made with
  | error failure => rfl
  | ok e => exact engine_setEngine_of_ne h e

theorem engine_step {step : Step} (h : step.namesEngine name = false) :
    (world.step step).2.engine name =
      (world.engine name).map (Engine.afterAll (world.writes step)) := by
  have hnone := (Engine.map_afterAll_nil (world.engine name)).symm
  cases step with
  | configure other _ _ | derive other _ _ _ =>
    refine (engine_storeEngine ?_ _).trans hnone
    simpa [Step.namesEngine] using h
  | call engine argument result =>
    cases he : world.engine engine with
    | error failure =>
      simp only [World.step, writes, he]
      exact hnone
    | ok e =>
      cases hv : world.value argument with
      | error failure =>
        simp only [World.step, writes, he, hv]
        exact hnone
      | ok v =>
        simp only [World.step, writes, he, hv]
        exact engine_call e v result
  | restore source result => exact (engine_storeResult result _).trans hnone
  | duplicate thaw source result => exact (engine_storeResult result _).trans hnone
  | overwrite target segments v =>
    cases hroot : world.value target with
    | error failure =>
      simp only [World.step, writes, hroot]
      exact hnone
    | ok root =>
      simp only [World.step, writes, hroot]
      exact engine_edit root _ _
  | expand target path segments censor =>
    cases hroot : world.value target with
    | error failure =>
      simp only [World.step, writes, hroot]
      exact hnone
    | ok root =>
      simp only [World.step, writes, hroot]
      exact engine_edit root _ _
  | store w => exact engine_afterAll [w]
  | define _ _ | find _ _ | write _ | list => exact hnone

/-- After any session an engine is what it was, except that its literal shows what was written into
it. -/
theorem engine_run {steps : List Step} (h : ∀ step ∈ steps, step.namesEngine name = false) :
    (world.run steps).2.engine name =
      (world.engine name).map (Engine.afterAll (world.writesAll steps)) := by
  induction steps generalizing world with
  | nil => exact (Engine.map_afterAll_nil _).symm
  | cons step rest ih =>
    obtain ⟨hstep, hrest⟩ := List.forall_mem_cons.mp h
    have hrun : (world.run (step :: rest)).2 = ((world.step step).2.run rest).2 := rfl
    rw [hrun, ih hrest, engine_step hstep, writesAll]
    cases world.engine name with
    | error failure => rfl
    | ok e => simp only [Except.map, Engine.afterAll_append]

/-- A call is made by an engine and a value alone, whatever their names and the other engines. -/
theorem step_call {other : World} {old new argument result : String} {e : Engine}
    (hold : world.engine old = .ok e) (hnew : other.engine new = .ok e)
    (hvalues : other.values = world.values) (hnext : other.next = world.next) :
    let answered := world.step (.call old argument result)
    let renewed := other.step (.call new argument result)
    answered.1 = renewed.1 ∧ answered.2.values = renewed.2.values ∧
      answered.2.engine old = renewed.2.engine new := by
  have hvalue : other.value argument = world.value argument := by simp only [value, hvalues]
  simp only [World.step, hold, hnew, hvalue]
  cases world.value argument with
  | error failure => exact ⟨rfl, hvalues.symm, hold.trans hnew.symm⟩
  | ok v =>
    simp only [engine_call, hold, hnew, hnext, and_true]
    simp only [call, hnext]
    cases (e.run v world.next).result with
    | error failure => simp only [afterAll, hvalues, and_self]
    | ok r => simp only [setValue, afterAll, hvalues, and_self]

end

/-- No state persists across calls. After any session that follows the configuration of an engine,
whatever was called, restored and written in it and however the calls ended, a further call gives
the same answer, result and consultations included, and leaves the same values and the same policy
behind as a call of an engine that is configured anew, unless a write landed in the literal of the
censor. -/
theorem call_after_any_session {world : World} {name fresh : String} {setting : Setting}
    {configuration : Configuration} {e : Engine} {steps : List Step}
    (hconfigure : Engine.configure setting configuration = .ok e)
    (hsteps : ∀ step ∈ steps, step.namesEngine name = false)
    (hwrites : ∀ w ∈ (world.step (.configure name setting configuration)).2.writesAll steps,
      w.target ∉ e.policy.censor.ids) (argument result : String) :
    let later := ((world.step (.configure name setting configuration)).2.run steps).2
    let answered := later.step (.call name argument result)
    let renewed := (later.step (.configure fresh setting configuration)).2.step
      (.call fresh argument result)
    answered.1 = renewed.1 ∧ answered.2.values = renewed.2.values ∧
      answered.2.engine name = renewed.2.engine fresh := by
  intro later
  have hbefore : (world.step (.configure name setting configuration)).2.engine name =
      .ok e := by
    simp only [World.step, storeEngine, hconfigure]
    exact engine_setEngine_self e
  have hlater : later.engine name = .ok e := by
    rw [engine_run hsteps, hbefore, Except.map, Engine.afterAll_of_not_mem hwrites]
  have hrenewed : (later.step (.configure fresh setting configuration)).2 =
      later.setEngine fresh e := by
    simp only [World.step, storeEngine, hconfigure]
  rw [hrenewed]
  exact step_call hlater (engine_setEngine_self e) rfl rfl

end World

namespace Sample

/-- Puts one list in the place of `a`, and gives live results. -/
def listing : Configuration := .fields
  { paths := some (.list 0 [.text "a"])
    censor := some (.literal (.list 1 [.atom (.int 0)]))
    output := some (.value (.atom (.bool false))) } {}

def lister : Engine := ⟨{
  paths := ["a"], censor := .literal (.list 1 [.atom (.int 0)]), output := .live, strict := true
  remove := false, debug := false, given := [.paths, .censor, .output] }⟩

def shelf : World where
  next := 20
  values := [
    ("plain", .dict 2 [(.text "a", .atom (.int 1)), (.text "b", .text "s")]),
    ("odd", .node 3 (.mapping .wrapped) none none
      [(.text "a", .node 4 .view none none [(.text "k", .null)])])]

/-- A call that returns, a restore, a write into the result, and a call that fails. -/
def visits : List Step :=
  [.call "lister" "plain" "first", .restore "first" "back", .overwrite "first" ["b"] (.text "t"),
    .call "lister" "odd" "none"]

end Sample

/-- The writes go beside the list, into the working copy and into the result. -/
theorem World.call_after_visits :
    let start := (Sample.shelf.step (.configure "lister" (.lenient false) Sample.listing)).2
    let later := (start.run Sample.visits).2
    let answered := later.step (.call "lister" "plain" "second")
    let renewed := (later.step (.configure "new" (.lenient false) Sample.listing)).2.step
      (.call "new" "plain" "second")
    (start.run Sample.visits).1.map (fun answer => answer.report.isOk) =
        [true, true, true, false] ∧
      (start.writesAll Sample.visits).map Write.target = [20, 22] ∧
      Sample.lister.policy.censor.ids = [1] ∧
      answered.1 = renewed.1 ∧ answered.2.values = renewed.2.values ∧
      answered.2.engine "lister" = renewed.2.engine "new" := by
  refine ⟨by decide, by decide, by decide, ?_⟩
  exact call_after_any_session (e := Sample.lister) rfl (by decide) (by decide) "plain" "second"

end Redaction
