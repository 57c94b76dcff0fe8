import Redaction.Engine

/-!
# Sessions

A world holds named values and named engines, which may share containers. Each step of a session
does one thing to the world and gives a report. A step that fails defines nothing, but what it
wrote before it failed stays.
-/

namespace Redaction

structure World where
  next : Ident
  values : List (String × Value) := []
  engines : List (String × Engine) := []

inductive Step where
  | define (name : String) (v : Value)
  | configure (name : String) (setting : Setting) (configuration : Configuration)
  | derive (name source : String) (setting : Setting) (overrides : Draft)
  | call (engine argument result : String)
  | restore (source result : String)
  | duplicate (thaw : Bool) (source result : String)
  | overwrite (target : String) (segments : List String) (v : Value)
  | expand (target path : String) (segments : List String) (censor : Censor)
  /-- Any write into a container, whoever makes it. -/
  | store (w : Write)
  | find (source : String) (segments : List String)
  | write (source : String)
  | list

inductive Report where
  | done
  | engine (e : Engine)
  | result (v : Value)
  | wrote (b : Bool)
  | count (n : Nat)
  | found (v : Option Value)
  | text (s : String)
  | values (values : List (String × Value))

/-- What a step tells: its report or failure, the value that it wrote to as it is afterwards, and
what the censor and the debug log were told. -/
structure Answer where
  report : Except Failure Report
  root : Option Value := none
  consultations : List Consultation := []
  lines : List String := []

namespace World

def value (world : World) (name : String) : Except Failure Value :=
  match world.values.lookup name with
  | some v => .ok v
  | none => .error (.unknownName name)

def engine (world : World) (name : String) : Except Failure Engine :=
  match world.engines.lookup name with
  | some e => .ok e
  | none => .error (.unknownName name)

def setValue (world : World) (name : String) (v : Value) : World :=
  { world with values := (name, v) :: world.values.filter (·.1 ≠ name) }

def setEngine (world : World) (name : String) (e : Engine) : World :=
  { world with engines := (name, e) :: world.engines.filter (·.1 ≠ name) }

/-- The world after writes, which show in every value and in every engine. -/
def afterAll (ws : List Write) (world : World) : World :=
  { world with
    values := world.values.map fun (name, v) => (name, v.afterAll ws)
    engines := world.engines.map fun (name, e) => (name, e.afterAll ws) }

def refuse (world : World) (failure : Failure) : Answer × World :=
  ({ report := .error failure }, world)

def storeResult (world : World) (name : String) :
    Except Failure (Value × Ident) → Answer × World
  | .ok (v, next) => ({ report := .ok (.result v) }, { world with next }.setValue name v)
  | .error failure => world.refuse failure

def storeEngine (world : World) (name : String) : Except Failure Engine → Answer × World
  | .ok e =>
    ({ report := .ok (.engine e), lines := e.openingLines }, world.setEngine name e)
  | .error failure => world.refuse failure

/-- Calls an engine on a value and names the result. -/
def call (world : World) (e : Engine) (v : Value) (name : String) : Answer × World :=
  let outcome := e.run v world.next
  let world := { world.afterAll outcome.writes with next := outcome.next }
  let answer := fun report : Except Failure Report =>
    { report, consultations := outcome.consultations, lines := outcome.lines : Answer }
  match outcome.result with
  | .ok v => (answer (.ok (.result v)), world.setValue name v)
  | .error failure => (answer (.error failure), world)

/-- Runs an edit on a value; its writes show in the whole world. -/
def edit {α : Type} (world : World) (v : Value) (action : Run α) (report : α → Report) :
    Answer × World :=
  let answer := fun (s : Workspace) (report : Except Failure Report) =>
    ({ report, root := some s.root, consultations := s.consultations.reverse : Answer },
      { world.afterAll s.writes.reverse with next := s.next })
  match action (.start v world.next) with
  | .ok a s => answer s (.ok (report a))
  | .error failure s => answer s (.error failure)

/-- Overwrites what segments lead to in the value under edit, and says whether anything was
written. -/
def overwriting (segments : List String) (v : Value) : Run Bool := do
  match ← Run.ofExcept ((← Run.root).overwrite segments v) with
  | none => return false
  | some writes =>
    Run.performAll writes
    return true

def step (world : World) : Step → Answer × World
  | .define name v => ({ report := .ok .done }, world.setValue name v)
  | .configure name setting configuration =>
    world.storeEngine name (Engine.configure setting configuration)
  | .derive name source setting overrides =>
    world.storeEngine name do
      Engine.derive setting (← world.engine source).policy overrides
  | .call engine argument result =>
    match world.engine engine, world.value argument with
    | .ok e, .ok v => world.call e v result
    | .error failure, _ => world.refuse failure
    | _, .error failure => world.refuse failure
  | .restore source result =>
    world.storeResult result do (← world.value source).restore world.next
  | .duplicate thaw source result =>
    world.storeResult result do (← world.value source).duplicate thaw world.next
  | .overwrite target segments v =>
    match world.value target with
    | .ok root => world.edit root (overwriting segments v) .wrote
    | .error failure => world.refuse failure
  | .expand target path segments censor =>
    match world.value target with
    | .ok root => world.edit root (Run.expand censor path segments) .count
    | .error failure => world.refuse failure
  | .store w =>
    ({ report := .ok .done },
      { world.afterAll [w] with next := max world.next (w.content.elim 0 Value.bound) })
  | .find source segments =>
    ({ report := do return .found (← (← world.value source).find? segments) }, world)
  | .write source => ({ report := do return .text (← (← world.value source).json) }, world)
  | .list => ({ report := .ok (.values world.values) }, world)

def run (world : World) : List Step → List Answer × World
  | [] => ([], world)
  | step :: rest =>
    let (answer, world) := world.step step
    let (answers, world) := world.run rest
    (answer :: answers, world)

end Redaction.World
