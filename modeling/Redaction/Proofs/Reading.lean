import Mathlib
import Redaction.Path.Grammar

/-!
# What a path text means

An accepted path text is laid out as runs of text outside brackets with groups in brackets between
them. Its segments are the pieces between the dots of each run and the body of each group without
its quotes, as far as these are not empty. The scanner reads the text in one pass and keeps the
open quote and the segment under way between characters; the grammar is checked by a second pass
that knows of brackets only. `Path.Means` speaks of neither.

Main statement: `Path.check_follows_grammar`.
-/

namespace Redaction.Path

abbrev Stretch := { cs : List Char // '[' ∉ cs ∧ ']' ∉ cs }

namespace Stretch

def empty : Stretch := ⟨[], by simp⟩

def cons (c : Char) (hc : c ≠ '[' ∧ c ≠ ']') (s : Stretch) : Stretch :=
  ⟨c :: s.1, by simp [hc.1.symm, s.2.1], by simp [hc.2.symm, s.2.2]⟩

end Stretch

/-- A path text with its brackets paired: a run outside brackets, then groups, each a body in
brackets with the run behind it. -/
structure Layout where
  first : Stretch
  groups : List (Stretch × Stretch)

/-- What stands between the dots of a run, where anything does. Quotes are ordinary characters
there. -/
def between (run : List Char) : List (List Char) := (run.splitOn '.').filter (· ≠ [])

/-- A body without the quotes that open and close its quoted runs. The other quote character is
kept inside a run, and a run that is not closed reaches to the end of the body. -/
def unquoted : Option Char → List Char → List Char
  | _, [] => []
  | none, c :: rest => if isQuote c then unquoted (some c) rest else c :: unquoted none rest
  | some opened, c :: rest =>
    if c = opened then unquoted none rest else c :: unquoted (some opened) rest

def nonempty (cs : List Char) : List (List Char) := if cs = [] then [] else [cs]

namespace Layout

def text (l : Layout) : List Char :=
  l.first.1 ++ l.groups.flatMap fun group => '[' :: group.1.1 ++ ']' :: group.2.1

/-- The segments in text order: those of the runs and at most one of each group. -/
def segments (l : Layout) : List String :=
  (between l.first.1 ++ l.groups.flatMap fun group =>
    nonempty (unquoted none group.1.1) ++ between group.2.1).map String.ofList

end Layout

/-- The path text obeys the grammar and has these segments. -/
def Means (path : String) (segments : List String) : Prop :=
  path ≠ "" ∧ ¬['.', '.'] <:+: path.toList ∧ segments ≠ [] ∧
    ∃ l : Layout, l.text = path.toList ∧ l.segments = segments

/-! ## Reading without positions -/

/-- The texts of the pieces that reading on gives. The segment under way is empty when there is
none. -/
def readFrom : Place → List Char → List Char → List (List Char)
  | _, current, [] => nonempty current
  | place, current, c :: rest =>
    match place.read c with
    | (.cut, after) => nonempty current ++ readFrom after [] rest
    | (.drop, after) => readFrom after current rest
    | (.keep, after) => readFrom after (current ++ [c]) rest

def Partial.chars : Option Partial → List Char
  | none => []
  | some p => p.reversed.reverse

theorem Partial.chars_extend (current : Option Partial) (c : Char) (position : Nat) :
    chars (some (extend current c position)) = chars current ++ [c] := by
  cases current <;> simp [chars, extend]

theorem Partial.reversed_extend (current : Option Partial) (c : Char) (position : Nat) :
    ∀ p ∈ some (extend current c position), p.reversed ≠ [] := by
  intro p hp
  obtain rfl := Option.some.inj hp
  cases current <;> simp [extend]

theorem Partial.nonempty_chars {current : Option Partial} (h : ∀ p ∈ current, p.reversed ≠ []) :
    nonempty (chars current) = current.toList.map fun p => p.close.text := by
  cases current with
  | none => rfl
  | some p => simp [nonempty, chars, close, h p rfl]

theorem map_text_scanFrom {place : Place} {current : Option Partial} {position : Nat}
    {cs : List Char} (h : ∀ p ∈ current, p.reversed ≠ []) :
    (scanFrom place current position cs).map Piece.text =
      readFrom place (Partial.chars current) cs := by
  induction cs generalizing place current position with
  | nil =>
    rw [scanFrom, readFrom, Partial.nonempty_chars h, List.map_map]
    rfl
  | cons c rest ih =>
    rw [scanFrom, readFrom]
    rcases place.read c with ⟨effect, after⟩
    cases effect with
    | cut =>
      simp only [List.map_append, List.map_map, Partial.nonempty_chars h]
      rw [ih (by simp)]
      rfl
    | drop => exact ih h
    | keep =>
      simp only
      rw [ih (Partial.reversed_extend current c position), Partial.chars_extend]

theorem segments_eq (path : String) :
    segments path = (readFrom .outside [] path.toList).map String.ofList := by
  have htexts : (pieces path).map Piece.text = readFrom .outside [] path.toList :=
    map_text_scanFrom (by simp)
  rw [← htexts, List.map_map]
  rfl

section

variable {place after : Place} {current rest : List Char} {c : Char}

theorem readFrom_cut (h : place.read c = (.cut, after)) :
    readFrom place current (c :: rest) = nonempty current ++ readFrom after [] rest := by
  rw [readFrom, h]

theorem readFrom_drop (h : place.read c = (.drop, after)) :
    readFrom place current (c :: rest) = readFrom after current rest := by
  rw [readFrom, h]

theorem readFrom_keep (h : place.read c = (.keep, after)) :
    readFrom place current (c :: rest) = readFrom after (current ++ [c]) rest := by
  rw [readFrom, h]

end

/-! ## Runs and groups -/

section

variable {current run body rest : List Char} {tail : List (List Char)}

theorem modifyHead_nil_append (pieces : List (List Char)) :
    pieces.modifyHead ([] ++ ·) = pieces := by
  cases pieces <;> rfl

theorem readFrom_run (hrun : '[' ∉ run)
    (hrest : ∀ current, readFrom .outside current rest = nonempty current ++ tail) :
    readFrom .outside current (run ++ rest) =
      ((run.splitOn '.').modifyHead (current ++ ·)).filter (· ≠ []) ++ tail := by
  induction run generalizing current with
  | nil =>
    rw [List.nil_append, hrest, List.splitOn_nil]
    by_cases hc : current = [] <;> simp [nonempty, hc]
  | cons c others ih =>
    simp only [List.mem_cons, not_or] at hrun
    rw [List.cons_append, List.splitOn, List.splitOnP_cons_eq_if_modifyHead, ← List.splitOn]
    by_cases hdot : c = '.'
    · subst hdot
      rw [readFrom_cut rfl, ih hrun.2, modifyHead_nil_append]
      by_cases hc : current = [] <;> simp [nonempty, hc]
    · have hkeep : Place.outside.read c = (.keep, .outside) := by
        simp [Place.read, hdot, Ne.symm hrun.1]
      rw [readFrom_keep hkeep, ih hrun.2, if_neg (by simpa using hdot),
        List.modifyHead_modifyHead]
      simp [Function.comp_def]

/-- A group gives its body without quotes, and reading goes on outside with nothing under way. -/
theorem readFrom_body {quote : Option Char} (hquote : ∀ opened ∈ quote, isQuote opened = true)
    (hbody : '[' ∉ body ∧ ']' ∉ body) :
    readFrom (.inside quote) current (body ++ ']' :: rest) =
      nonempty (current ++ unquoted quote body) ++ readFrom .outside [] rest := by
  induction body generalizing current quote with
  | nil =>
    rw [List.nil_append, readFrom_cut rfl]
    cases quote <;> simp [unquoted]
  | cons c others ih =>
    simp only [List.mem_cons, not_or] at hbody
    obtain ⟨⟨hopen, hopens⟩, hclose, hcloses⟩ := hbody
    have hothers : '[' ∉ others ∧ ']' ∉ others := ⟨hopens, hcloses⟩
    have hopen : c ≠ '[' := Ne.symm hopen
    have hclose : c ≠ ']' := Ne.symm hclose
    rw [List.cons_append]
    cases quote with
    | none =>
      by_cases hc : isQuote c = true
      · have hdrop : (Place.inside none).read c = (.drop, .inside (some c)) := by
          simp [Place.read, hopen, hclose, hc]
        rw [readFrom_drop hdrop, ih (by simpa using hc) hothers, unquoted, if_pos hc]
      · have hkeep : (Place.inside none).read c = (.keep, .inside none) := by
          simp [Place.read, hopen, hclose, hc]
        rw [readFrom_keep hkeep, ih (by simp) hothers, unquoted, if_neg hc, List.append_assoc,
          List.singleton_append]
    | some opened =>
      by_cases hsame : c = opened
      · subst hsame
        have hdrop : (Place.inside (some c)).read c = (.drop, .inside none) := by
          simp [Place.read, hopen, hclose, hquote c rfl]
        rw [readFrom_drop hdrop, ih (by simp) hothers, unquoted, if_pos rfl]
      · have hkeep : (Place.inside (some opened)).read c = (.keep, .inside (some opened)) := by
          simp [Place.read, hopen, hclose, hsame]
        rw [readFrom_keep hkeep, ih hquote hothers, unquoted, if_neg hsame, List.append_assoc,
          List.singleton_append]

end

/-- Reading a laid out text gives its segments: nothing is carried from one run or group into the
next. -/
theorem readFrom_layout (l : Layout) :
    (readFrom .outside [] l.text).map String.ofList = l.segments := by
  obtain ⟨first, groups⟩ := l
  rw [Layout.text, Layout.segments]
  congr 1
  induction groups generalizing first with
  | nil =>
    rw [@readFrom_run [] first.1 _ [] first.2.1 (by simp [readFrom]), modifyHead_nil_append]
    simp [between]
  | cons group others ih =>
    obtain ⟨body, run⟩ := group
    have hgroup : ∀ current, readFrom .outside current
        ('[' :: body.1 ++ ']' :: run.1 ++ others.flatMap fun group =>
          '[' :: group.1.1 ++ ']' :: group.2.1) =
        nonempty current ++ (nonempty (unquoted none body.1) ++ (between run.1 ++
          others.flatMap fun group =>
            nonempty (unquoted none group.1.1) ++ between group.2.1)) := by
      intro current
      rw [List.append_assoc, List.cons_append, readFrom_cut rfl, List.cons_append,
        readFrom_body (by simp) body.2, List.nil_append, ih run]
    rw [List.flatMap_cons, readFrom_run first.2.1 hgroup, modifyHead_nil_append]
    simp [between]

/-! ## The grammar -/

theorem hasDoubleDot_cons_cons (c d : Char) (rest : List Char) :
    hasDoubleDot (c :: d :: rest) = (c = '.' && d = '.' || hasDoubleDot (d :: rest)) := by
  by_cases h : c = '.' ∧ d = '.'
  · obtain ⟨rfl, rfl⟩ := h
    simp [hasDoubleDot]
  · rw [hasDoubleDot]
    · simpa using fun hc hd => absurd ⟨hc, hd⟩ h
    · rintro rest rfl hrest
      exact h ⟨rfl, (List.cons.inj hrest).1⟩

theorem hasDoubleDot_iff (cs : List Char) : hasDoubleDot cs = true ↔ ['.', '.'] <:+: cs := by
  induction cs with
  | nil => simp [hasDoubleDot]
  | cons c rest ih =>
    rw [List.infix_cons_iff, List.cons_prefix_cons]
    cases rest with
    | nil => simp [hasDoubleDot]
    | cons d others =>
      rw [List.cons_prefix_cons, hasDoubleDot_cons_cons, Bool.or_eq_true, ih]
      simp [@eq_comm Char '.']

namespace Layout

def empty : Layout := ⟨.empty, []⟩

/-- The layout with one more character in front of its first run. -/
def push (c : Char) (hc : c ≠ '[' ∧ c ≠ ']') (l : Layout) : Layout := ⟨l.first.cons c hc, l.groups⟩

/-- The layout behind a group, with nothing before that. -/
def enclose (body : Stretch) (l : Layout) : Layout := ⟨.empty, (body, l.first) :: l.groups⟩

variable {c : Char} {body : Stretch} {l : Layout}

@[simp] theorem text_empty : empty.text = [] := rfl

@[simp] theorem text_push (hc : c ≠ '[' ∧ c ≠ ']') : (l.push c hc).text = c :: l.text := rfl

@[simp] theorem text_enclose : (l.enclose body).text = '[' :: (body.1 ++ ']' :: l.text) := by
  simp [text, enclose, Stretch.empty]

/-- A laid out text is empty or begins with an ordinary character or with a group. -/
theorem text_cases (l : Layout) :
    l.text = [] ∨
      (∃ (c : Char) (rest : Layout), (c ≠ '[' ∧ c ≠ ']') ∧ l.text = c :: rest.text) ∨
      ∃ (body : Stretch) (rest : Layout), l.text = '[' :: (body.1 ++ ']' :: rest.text) := by
  obtain ⟨⟨first, hopen, hclose⟩, groups⟩ := l
  cases first with
  | cons c run =>
    simp only [List.mem_cons, not_or] at hopen hclose
    exact .inr (.inl ⟨c, ⟨⟨run, hopen.2, hclose.2⟩, groups⟩, ⟨Ne.symm hopen.1, Ne.symm hclose.1⟩,
      rfl⟩)
  | nil =>
    cases groups with
    | nil => exact .inl rfl
    | cons group others =>
      exact .inr (.inr ⟨group.1, ⟨group.2, others⟩, by simp [text]⟩)

end Layout

def IsLaidOut (cs : List Char) : Prop := ∃ l : Layout, l.text = cs

/-- The characters are the rest of a body, its closing bracket, and what can be laid out. -/
def EndsGroup (cs : List Char) : Prop :=
  ∃ (body : Stretch) (l : Layout), body.1 ++ ']' :: l.text = cs

section

variable {c : Char} {rest : List Char}

theorem isLaidOut_open : IsLaidOut ('[' :: rest) ↔ EndsGroup rest := by
  constructor
  · rintro ⟨l, hl⟩
    obtain h | ⟨c, l', hc, h⟩ | ⟨body, l', h⟩ := l.text_cases <;> rw [h] at hl
    · cases hl
    · exact absurd (List.cons.inj hl).1 hc.1
    · exact ⟨body, l', (List.cons.inj hl).2⟩
  · rintro ⟨body, l, rfl⟩
    exact ⟨l.enclose body, Layout.text_enclose⟩

theorem not_isLaidOut_close : ¬IsLaidOut (']' :: rest) := by
  rintro ⟨l, hl⟩
  obtain h | ⟨c, l', hc, h⟩ | ⟨body, l', h⟩ := l.text_cases <;> rw [h] at hl
  · cases hl
  · exact hc.2 (List.cons.inj hl).1
  · cases hl

theorem isLaidOut_cons (hopen : c ≠ '[') (hclose : c ≠ ']') :
    IsLaidOut (c :: rest) ↔ IsLaidOut rest := by
  constructor
  · rintro ⟨l, hl⟩
    obtain h | ⟨d, l', hd, h⟩ | ⟨body, l', h⟩ := l.text_cases <;> rw [h] at hl
    · cases hl
    · exact ⟨l', (List.cons.inj hl).2⟩
    · exact absurd (List.cons.inj hl).1.symm hopen
  · rintro ⟨l, rfl⟩
    exact ⟨l.push c ⟨hopen, hclose⟩, Layout.text_push _⟩

theorem not_endsGroup_open : ¬EndsGroup ('[' :: rest) := by
  rintro ⟨⟨_ | ⟨c, cs⟩, hcs⟩, l, hl⟩
  · cases hl
  · exact hcs.1 (by simp [(List.cons.inj hl).1])

theorem endsGroup_close : EndsGroup (']' :: rest) ↔ IsLaidOut rest := by
  constructor
  · rintro ⟨⟨_ | ⟨c, cs⟩, hcs⟩, l, hl⟩
    · exact ⟨l, (List.cons.inj hl).2⟩
    · exact absurd (List.cons.inj hl).1 fun h => hcs.2 (by simp [h])
  · rintro ⟨l, rfl⟩
    exact ⟨.empty, l, rfl⟩

theorem endsGroup_cons (hopen : c ≠ '[') (hclose : c ≠ ']') :
    EndsGroup (c :: rest) ↔ EndsGroup rest := by
  constructor
  · rintro ⟨⟨_ | ⟨d, cs⟩, hcs⟩, l, hl⟩
    · exact absurd (List.cons.inj hl).1.symm hclose
    · simp only [List.mem_cons, not_or] at hcs
      exact ⟨⟨cs, hcs.1.2, hcs.2.2⟩, l, (List.cons.inj hl).2⟩
  · rintro ⟨body, l, rfl⟩
    exact ⟨body.cons c ⟨hopen, hclose⟩, l, rfl⟩

end

/-- The bracket pass accepts what can be laid out; inside a bracket, what ends a group. -/
theorem balancedFrom_iff (cs : List Char) :
    (balancedFrom false cs = true ↔ IsLaidOut cs) ∧ (balancedFrom true cs = true ↔ EndsGroup cs) := by
  induction cs with
  | nil => exact ⟨⟨fun _ => ⟨.empty, rfl⟩, fun _ => rfl⟩, by simp [balancedFrom, EndsGroup]⟩
  | cons c rest ih =>
    by_cases hopen : c = '['
    · subst hopen
      rw [isLaidOut_open, ← ih.2]
      exact ⟨Iff.rfl, by simp [balancedFrom, not_endsGroup_open]⟩
    · by_cases hclose : c = ']'
      · subst hclose
        rw [endsGroup_close, ← ih.1]
        exact ⟨by simp [balancedFrom, not_isLaidOut_close], Iff.rfl⟩
      · rw [isLaidOut_cons hopen hclose, endsGroup_cons hopen hclose, ← ih.1, ← ih.2]
        simp [balancedFrom, hopen, hclose]

theorem means_iff {path : String} {segments : List String} :
    Means path segments ↔ accepts path = true ∧ Path.segments path = segments := by
  have hread : ∀ l : Layout, l.text = path.toList → l.segments = Path.segments path := by
    intro l hl
    rw [segments_eq, ← hl, readFrom_layout]
  rw [accepts, Bool.and_eq_true, Bool.and_eq_true, Bool.and_eq_true, (balancedFrom_iff _).1,
    Bool.not_eq_true', Bool.not_eq_true', ← Bool.not_eq_true (hasDoubleDot _), hasDoubleDot_iff]
  constructor
  · rintro ⟨hpath, hdots, hsegments, l, hl, rfl⟩
    have hsame := hread l hl
    exact ⟨⟨⟨⟨by simpa using hpath, hdots⟩, l, hl⟩, by simpa [← hsame] using hsegments⟩, hsame.symm⟩
  · rintro ⟨⟨⟨⟨hpath, hdots⟩, l, hl⟩, hsegments⟩, rfl⟩
    exact ⟨by simpa using hpath, hdots, by simpa using hsegments, l, hl, hread l hl⟩

/-- Checking a path text gives the segments that it means, and fails with its name when it means
none. -/
theorem check_follows_grammar (path : String) :
    (∀ segments, check path = .ok segments ↔ Means path segments) ∧
      ((∃ segments, Means path segments) ∧ check path = .ok (segments path) ∨
        (¬∃ segments, Means path segments) ∧ check path = .error (.invalidPath path)) ∧
      (Failure.invalidPath path).message = "Invalid redaction path (" ++ path ++ ")" := by
  refine ⟨fun segments => ?_, ?_, rfl⟩
  · rw [means_iff, check]
    by_cases h : accepts path = true <;> simp [h]
  · simp only [means_iff]
    by_cases h : accepts path = true <;> simp [check, h]

example : Means "a.'b'[\"c.d\"][x'y]" ["a", "'b'", "c.d", "xy"] :=
  means_iff.2 ⟨by decide, by decide⟩

end Redaction.Path
