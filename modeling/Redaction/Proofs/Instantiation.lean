import Redaction.Proofs.Reading
import Redaction.Value.Lookup

/-!
# Paths with the wildcard spelled out

Putting a label in place of the first wildcard of a path text changes one character of the text and
one segment of the path: the star was a segment of its own, and the label takes its place, whatever
brackets and quotes stand around it. A label is a text that reads as itself everywhere, outside
brackets and inside, with or without an open quote.

Main statements: `Path.exists_star`, and `Path.instantiate_replaces_first_wildcard` for all texts.
-/

namespace Redaction

namespace Path

/-- The character joins the segment under way wherever it is read. -/
def isOrdinary (c : Char) : Bool := c ≠ '.' && c ≠ '[' && c ≠ ']' && !isQuote c

def isLabel (s : String) : Bool := !s.isEmpty && s.toList.all isOrdinary

theorem toList_of_isLabel {s : String} (h : isLabel s = true) :
    s.toList ≠ [] ∧ ∀ c ∈ s.toList, isOrdinary c = true := by
  simpa [isLabel] using h

theorem isOrdinary_star : ∀ c ∈ ['*'], isOrdinary c = true := by simp [isOrdinary, isQuote]

/-- Reading on ends the segment under way as it is, and then gives `tail`. -/
def Ends (place : Place) (cs : List Char) (tail : List (List Char)) : Prop :=
  ∀ current, readFrom place current cs = nonempty current ++ tail

section

variable {c : Char} {place : Place} {current cs rest : List Char}

theorem read_of_isOrdinary (h : isOrdinary c = true) : place.read c = (.keep, place) := by
  simp only [isOrdinary, Bool.and_eq_true, Bool.not_eq_true', ne_eq, decide_not] at h
  obtain ⟨⟨⟨hdot, hopen⟩, hclose⟩, hquote⟩ := h
  cases place <;> simp_all [Place.read]

theorem readFrom_ordinary (h : ∀ c ∈ cs, isOrdinary c = true) :
    readFrom place current (cs ++ rest) = readFrom place (current ++ cs) rest := by
  induction cs generalizing current with
  | nil => simp
  | cons c others ih =>
    rw [List.cons_append, readFrom_keep (read_of_isOrdinary (h c List.mem_cons_self)),
      ih fun d mem => h d (List.mem_cons_of_mem _ mem), List.append_assoc, List.singleton_append]

end

/-! ## Where the first wildcard stands -/

/-- A star that is a segment of its own, as it is met on reading from a place with a segment under
way: the characters before it give `done`, in which no wildcard is, and leave nothing under way, and
those after it end the segment with the star. -/
structure MeetsStar (place : Place) (current before after : List Char)
    (done tail : List (List Char)) (there : Place) : Prop where
  reads : ∀ cs, readFrom place current (before ++ cs) = done ++ readFrom there [] cs
  first : ['*'] ∉ done
  ends : Ends there after tail

section

variable {place next there : Place} {c : Char} {current before after rest : List Char}
  {done tail : List (List Char)}

theorem MeetsStar.cut (hread : place.read c = (.cut, next)) (hcurrent : ['*'] ∉ nonempty current)
    (h : MeetsStar next [] before after done tail there) :
    MeetsStar place current (c :: before) after (nonempty current ++ done) tail there where
  reads cs := by rw [List.cons_append, readFrom_cut hread, h.reads, List.append_assoc]
  first mem := (List.mem_append.mp mem).elim hcurrent h.first
  ends := h.ends

theorem MeetsStar.drop (hread : place.read c = (.drop, next))
    (h : MeetsStar next current before after done tail there) :
    MeetsStar place current (c :: before) after done tail there where
  reads cs := by rw [List.cons_append, readFrom_drop hread, h.reads]
  first := h.first
  ends := h.ends

theorem MeetsStar.keep (hread : place.read c = (.keep, next))
    (h : MeetsStar next (current ++ [c]) before after done tail there) :
    MeetsStar place current (c :: before) after done tail there where
  reads cs := by rw [List.cons_append, readFrom_keep hread, h.reads]
  first := h.first
  ends := h.ends

end

/-- The star that the piece `p` consists of is still to come. -/
def StarAhead (place : Place) (current : List Char) (position : Nat) (cs : List Char)
    (p : Piece) : Prop :=
  ∃ before after done tail there, cs = before ++ '*' :: after ∧
    p.start = position + before.length ∧ p.stop = position + before.length + 1 ∧
    MeetsStar place current before after done tail there

section

variable {place next : Place} {c : Char} {current rest : List Char} {position : Nat} {p : Piece}

theorem StarAhead.cons {current' : List Char} (h : StarAhead next current' (position + 1) rest p)
    (hmeets : ∀ before after done tail there, MeetsStar next current' before after done tail there →
      ∃ done, MeetsStar place current (c :: before) after done tail there) :
    StarAhead place current position (c :: rest) p := by
  obtain ⟨before, after, done, tail, there, rfl, hstart, hstop, hm⟩ := h
  obtain ⟨done', hm'⟩ := hmeets before after done tail there hm
  refine ⟨c :: before, after, done', tail, there, rfl, ?_, ?_, hm'⟩
  · simp [hstart]; lia
  · simp [hstop]; lia

theorem Piece.segment_eq_wildcard : p.segment = wildcard ↔ p.text = ['*'] := by
  rw [Piece.segment, String.ofList_eq]
  rfl

end

/-- The first wildcard among the pieces is the segment under way, or its star is still to come. -/
theorem find?_scanFrom {place : Place} {current : Option Partial} {position : Nat}
    {cs : List Char} {p : Piece} (hcurrent : ∀ q ∈ current, q.reversed ≠ [])
    (h : (scanFrom place current position cs).find? (fun p => p.segment = wildcard) = some p) :
    (∃ q tail, current = some q ∧ p = q.close ∧ q.reversed = ['*'] ∧ Ends place cs tail) ∨
      StarAhead place (Partial.chars current) position cs p := by
  induction cs generalizing place current position with
  | nil =>
    cases current with
    | none => simp [scanFrom] at h
    | some q =>
      obtain ⟨hstar, rfl⟩ : q.close.segment = wildcard ∧ q.close = p := by
        simpa [scanFrom] using h
      refine .inl ⟨q, [], rfl, rfl, ?_, fun current => by simp [readFrom]⟩
      simpa [Partial.close] using Piece.segment_eq_wildcard.mp hstar
  | cons c rest ih =>
    rw [scanFrom] at h
    rcases hread : place.read c with ⟨effect, next⟩
    rw [hread] at h
    cases effect with
    | cut =>
      simp only [List.find?_append, Option.or_eq_some_iff] at h
      rcases h with h | ⟨hnone, h⟩
      · cases current with
        | none => simp at h
        | some q =>
          obtain ⟨hstar, rfl⟩ : q.close.segment = wildcard ∧ q.close = p := by simpa using h
          refine .inl ⟨q, readFrom next [] rest, rfl, rfl, ?_, fun current => readFrom_cut hread⟩
          simpa [Partial.close] using Piece.segment_eq_wildcard.mp hstar
      · obtain ⟨q, _, hq, _⟩ | hahead := ih (by simp) h
        · simp at hq
        have hdone : ['*'] ∉ nonempty (Partial.chars current) := by
          rw [Partial.nonempty_chars hcurrent]
          intro mem
          obtain ⟨q, hq, htext⟩ := List.mem_map.mp mem
          have := List.find?_eq_none.mp hnone q.close (List.mem_map_of_mem hq)
          simp [Piece.segment_eq_wildcard, htext] at this
        exact .inr (hahead.cons fun _ _ _ _ _ hmeets => ⟨_, hmeets.cut hread hdone⟩)
    | drop =>
      obtain ⟨q, tail, hq, hp, hstar, hends⟩ | hahead := ih hcurrent h
      · exact .inl ⟨q, tail, hq, hp, hstar, fun current => by rw [readFrom_drop hread, hends]⟩
      · exact .inr (hahead.cons fun _ _ _ _ _ hmeets => ⟨_, hmeets.drop hread⟩)
    | keep =>
      obtain ⟨q, tail, hq, hp, hstar, hends⟩ | hahead :=
        ih (Partial.reversed_extend current c position) h
      · obtain rfl := Option.some.inj hq
        cases current with
        | some q =>
          have hnil : q.reversed = [] := (List.cons.inj hstar).2
          exact absurd hnil (hcurrent q rfl)
        | none =>
          obtain rfl : c = '*' := (List.cons.inj hstar).1
          obtain rfl : place = next := by
            simpa using (read_of_isOrdinary (by decide)).symm.trans hread
          refine .inr ⟨[], rest, [], tail, place, rfl, ?_, ?_, ⟨fun cs => rfl, by simp, hends⟩⟩
          · simp [hp, Partial.close, Partial.extend]
          · simp [hp, Partial.close, Partial.extend]
      · rw [Partial.chars_extend] at hahead
        exact .inr (hahead.cons fun _ _ _ _ _ hmeets => ⟨_, hmeets.keep hread⟩)

/-! ## Acceptance -/

section

variable {x : Char} {a b label : List Char}

theorem hasDoubleDot_cons (hx : x ≠ '.') : hasDoubleDot (x :: b) = hasDoubleDot b := by
  simp [hasDoubleDot, hx]

theorem hasDoubleDot_append (hx : x ≠ '.') :
    hasDoubleDot (a ++ x :: b) = (hasDoubleDot a || hasDoubleDot b) := by
  induction a with
  | nil => simpa [hasDoubleDot] using hasDoubleDot_cons hx
  | cons c rest ih =>
    cases rest with
    | nil =>
      have hend : hasDoubleDot [c] = false := by simp [hasDoubleDot]
      rw [List.singleton_append, hasDoubleDot_cons_cons, hasDoubleDot_cons hx, hend]
      simp [hx]
    | cons d others =>
      rw [List.cons_append, List.cons_append, hasDoubleDot_cons_cons, hasDoubleDot_cons_cons,
        ← List.cons_append, ih, Bool.or_assoc]

theorem ne_of_isOrdinary {c : Char} (h : isOrdinary c = true) : c ≠ '.' ∧ c ≠ '[' ∧ c ≠ ']' := by
  refine ⟨?_, ?_, ?_⟩ <;> rintro rfl <;> exact absurd h (by decide)

theorem hasDoubleDot_middle (hlabel : label ≠ []) (h : ∀ c ∈ label, isOrdinary c = true) :
    hasDoubleDot (a ++ (label ++ b)) = hasDoubleDot (a ++ '*' :: b) := by
  have hskip : ∀ cs : List Char, (∀ c ∈ cs, isOrdinary c = true) →
      hasDoubleDot (cs ++ b) = hasDoubleDot b := by
    intro cs hcs
    induction cs with
    | nil => rfl
    | cons c rest ih =>
      rw [List.cons_append, hasDoubleDot_cons (ne_of_isOrdinary (hcs c List.mem_cons_self)).1]
      exact ih fun d mem => hcs d (List.mem_cons_of_mem _ mem)
  obtain ⟨c, rest, rfl⟩ := List.exists_cons_of_ne_nil hlabel
  rw [List.cons_append, hasDoubleDot_append (ne_of_isOrdinary (h c List.mem_cons_self)).1,
    hskip rest fun d mem => h d (List.mem_cons_of_mem _ mem), hasDoubleDot_append (by decide)]

theorem balancedFrom_middle {inside : Bool} (h : ∀ c ∈ label, isOrdinary c = true) :
    balancedFrom inside (a ++ (label ++ b)) = balancedFrom inside (a ++ '*' :: b) := by
  have hskip : ∀ cs : List Char, (∀ c ∈ cs, isOrdinary c = true) → ∀ inside,
      balancedFrom inside (cs ++ b) = balancedFrom inside b := by
    intro cs hcs inside
    induction cs with
    | nil => rfl
    | cons c rest ih =>
      obtain ⟨_, hopen, hclose⟩ := ne_of_isOrdinary (hcs c List.mem_cons_self)
      rw [List.cons_append, balancedFrom, if_neg hopen, if_neg hclose]
      exact ih fun d mem => hcs d (List.mem_cons_of_mem _ mem)
  induction a generalizing inside with
  | nil => exact (hskip label h inside).trans (hskip ['*'] isOrdinary_star inside).symm
  | cons c rest ih => simp only [List.cons_append, balancedFrom, ih]

end

/-- The first wildcard of a path text is one star of it. A label in its place changes that character
and that segment, and nothing about the path being accepted. -/
theorem exists_star {path : String} (h : wildcard ∈ segments path) :
    ∃ (a b : List Char) (before after : List String), path.toList = a ++ '*' :: b ∧
      segments path = before ++ wildcard :: after ∧ wildcard ∉ before ∧
      ∀ label, isLabel label = true →
        (instantiate path label).toList = a ++ label.toList ++ b ∧
        segments (instantiate path label) = before ++ label :: after ∧
        accepts (instantiate path label) = accepts path := by
  obtain ⟨p, hp⟩ : ∃ p, (pieces path).find? (fun p => p.segment = wildcard) = some p := by
    obtain ⟨p, mem, hp⟩ := List.mem_map.mp h
    exact Option.isSome_iff_exists.mp (List.find?_isSome.mpr ⟨p, mem, by simpa using hp⟩)
  obtain ⟨q, _, hq, _⟩ | ⟨a, b, done, tail, there, hpath, hstart, hstop, hreads, hfirst, hends⟩ :=
    find?_scanFrom (by simp) hp
  · simp at hq
  have hread : ∀ cs, cs ≠ [] → (∀ c ∈ cs, isOrdinary c = true) →
      readFrom .outside [] (a ++ (cs ++ b)) = done ++ cs :: tail := by
    intro cs hcs hordinary
    have hsegment : readFrom there [] (cs ++ b) = readFrom there ([] ++ cs) b :=
      readFrom_ordinary hordinary
    refine (hreads _).trans ?_
    rw [hsegment, hends, List.nil_append, nonempty, if_neg hcs, List.singleton_append]
  have hstar : segments path = done.map String.ofList ++ wildcard :: tail.map String.ofList := by
    have hone : readFrom .outside [] (a ++ '*' :: b) = done ++ ['*'] :: tail :=
      hread ['*'] (List.cons_ne_nil _ _) isOrdinary_star
    rw [segments_eq, hpath, hone, List.map_append, List.map_cons]
    rfl
  refine ⟨a, b, done.map String.ofList, tail.map String.ofList, hpath, hstar, ?_, ?_⟩
  · intro mem
    obtain ⟨cs, hcs, hwildcard⟩ := List.mem_map.mp mem
    exact hfirst (String.ofList_injective hwildcard ▸ hcs)
  intro label hlabel
  obtain ⟨hlabel, hordinary⟩ := toList_of_isLabel hlabel
  have htext : (instantiate path label).toList = a ++ label.toList ++ b := by
    rw [instantiate, hp]
    simp [hstart, hstop, hpath]
  have hsegments : segments (instantiate path label) =
      done.map String.ofList ++ label :: tail.map String.ofList := by
    rw [segments_eq, htext, List.append_assoc, hread _ hlabel hordinary]
    simp
  refine ⟨htext, hsegments, ?_⟩
  have hempty : (instantiate path label).isEmpty = path.isEmpty := by
    rw [Bool.eq_iff_iff]
    simp [← String.toList_eq_nil_iff, htext, hpath, hlabel]
  have hsome : ∀ segment, (done.map String.ofList ++ segment :: tail.map String.ofList).isEmpty =
      false := fun segment => List.isEmpty_eq_false_iff.mpr (by simp)
  rw [accepts, accepts, hsegments, hstar, htext, hpath, hempty, List.append_assoc,
    hasDoubleDot_middle hlabel hordinary, balancedFrom_middle hordinary, hsome, hsome]

theorem instantiate_of_no_wildcard {path : String} (h : wildcard ∉ segments path)
    (label : String) : instantiate path label = path := by
  have hnone : (pieces path).find? (fun p => p.segment = wildcard) = none := by
    refine List.find?_eq_none.mpr fun p mem hp => h ?_
    exact List.mem_map.mpr ⟨p, mem, by simpa using hp⟩
  rw [instantiate, hnone]

/-- Every path text, accepted or not, has one segment replaced by a label and nothing else: the
first wildcard, when there is one. The text then changes in that star alone, and it is accepted as
before. -/
theorem instantiate_replaces_first_wildcard (path label : String) (hlabel : isLabel label = true) :
    (wildcard ∈ segments path → ∃ a b, path.toList = a ++ '*' :: b ∧
      (instantiate path label).toList = a ++ label.toList ++ b) ∧
    (wildcard ∉ segments path → instantiate path label = path) ∧
    segments (instantiate path label) = (segments path).replace wildcard label ∧
    (check (instantiate path label)).isOk = (check path).isOk := by
  have hcheck : ∀ text, (check text).isOk = accepts text := by
    intro text
    by_cases h : accepts text = true <;> simp [check, h, Except.isOk, Except.toBool]
  rw [hcheck, hcheck]
  by_cases h : wildcard ∈ segments path
  · obtain ⟨a, b, before, after, hpath, hsegments, hfirst, hput⟩ := exists_star h
    obtain ⟨htext, hreplaced, haccepts⟩ := hput label hlabel
    refine ⟨fun _ => ⟨a, b, hpath, htext⟩, fun hnone => absurd h hnone, ?_, haccepts⟩
    rw [hreplaced, hsegments, List.replace_append_right hfirst, List.replace_cons_self]
  · have hsame := instantiate_of_no_wildcard h label
    rw [hsame]
    exact ⟨fun mem => absurd mem h, fun _ => rfl, (List.replace_of_not_mem h).symm, rfl⟩

/-- A malformed text: its first star is part of a longer segment, the quoted one is a segment, and
the last bracket is left open. -/
theorem instantiate_replaces_quoted_star :
    isLabel "7" = true ∧ wildcard ∈ segments "a*[''*'']['b" ∧
      instantiate "a*[''*'']['b" "7" = "a*[''7'']['b" ∧
      segments (instantiate "a*[''*'']['b" "7") = ["a*", "7", "b"] ∧
      (check (instantiate "a*[''*'']['b" "7")).isOk = (check "a*[''*'']['b").isOk := by
  have hlabel : isLabel "7" = true := by decide
  obtain ⟨_, _, hsegments, hcheck⟩ :=
    instantiate_replaces_first_wildcard "a*[''*'']['b" "7" hlabel
  exact ⟨hlabel, by decide, by decide, hsegments.trans (by decide), hcheck⟩

end Path

/-! ## Keys that a path can spell -/

/-- The key is an index with a numeral that can be read back, or a label other than the wildcard. -/
def Key.isNameable : Key → Bool
  | .atom (.int n) => 0 ≤ n && (Text.signed n).toList.length ≤ numeralLimit
  | .atom (.text s) => Path.isLabel s && s ≠ Path.wildcard
  | _ => false

theorem Text.toList_decimal (n : Nat) : (decimal 1 n).toList = Nat.toDigits 10 n := by
  have hlength : 1 - (Nat.toDigits 10 n).length = 0 :=
    Nat.sub_eq_zero_of_le Nat.length_toDigits_pos
  simp [decimal, zeroPadded, hlength]

theorem Text.isNumeral_toDigits (n : Nat) : isNumeral (Nat.toDigits 10 n) = true := by
  simp only [isNumeral, Bool.and_eq_true, List.all_eq_true]
  exact ⟨by simp [Nat.toDigits_ne_nil], fun c mem =>
    Nat.isDigit_of_mem_toDigits (by decide) (by decide) mem⟩

theorem Path.isOrdinary_of_isDigit {c : Char} (h : c.isDigit = true) : isOrdinary c = true := by
  have hne : ∀ d : Char, d.isDigit = false → c ≠ d := by
    rintro d hd rfl
    simp [h] at hd
  simp [isOrdinary, isQuote, hne '.' rfl, hne '[' rfl, hne ']' rfl, hne '\x27' rfl, hne '\x22' rfl]

namespace Key

theorem wording_index (i : Nat) : (index i).wording = Text.decimal 1 i := by
  simp [index, wording, Atom.wording, Atom.literal, Text.signed]

theorem isLabel_decimal (i : Nat) : Path.isLabel (Text.decimal 1 i) = true ∧
    Text.decimal 1 i ≠ Path.wildcard ∧ ((Text.decimal 1 i).toList.length ≤ numeralLimit →
      Path.index? (Text.decimal 1 i) = .ok (some i)) := by
  have hdigits : ∀ c ∈ (Text.decimal 1 i).toList, c.isDigit = true := by
    rw [Text.toList_decimal]
    exact fun c mem => Nat.isDigit_of_mem_toDigits (by decide) (by decide) mem
  refine ⟨?_, fun hstar => ?_, fun hlength => ?_⟩
  · have hsome : (Text.decimal 1 i).toList ≠ [] := by
      rw [Text.toList_decimal]
      exact Nat.toDigits_ne_nil
    simp only [Path.isLabel, Bool.and_eq_true, List.all_eq_true]
    exact ⟨by simpa using hsome, fun c mem => Path.isOrdinary_of_isDigit (hdigits c mem)⟩
  · have hdigit := hdigits '*' (by simp [hstar, Path.wildcard])
    simp [Char.isDigit] at hdigit
  · have hnumber : Text.ofNumeral? (Text.decimal 1 i).toList = some i := by
      rw [Text.toList_decimal, Text.ofNumeral?, if_pos (Text.isNumeral_toDigits i),
        Nat.ofDigitChars_toDigits (by decide) (by decide)]
    rw [Path.index?, hnumber]
    simp [Nat.not_lt.mpr hlength]

/-- A key that a path can spell is a label, and a segment of that text names it unless it is a
number and its numeral is a key too. -/
theorem isNameable_cases {k : Key} (h : k.isNameable = true) :
    Path.isLabel k.wording = true ∧ k.wording ≠ Path.wildcard ∧ k.holdsObject = false ∧
      (k = .text k.wording ∨ ∃ i, k = .index i ∧ Path.index? k.wording = .ok (some i)) := by
  match k, h with
  | .atom (.text s), h =>
    simp only [isNameable, Bool.and_eq_true, decide_eq_true_eq] at h
    exact ⟨h.1, h.2, rfl, .inl rfl⟩
  | .atom (.int n), h =>
    simp only [isNameable, Bool.and_eq_true, decide_eq_true_eq] at h
    obtain ⟨i, rfl⟩ := Int.eq_ofNat_of_zero_le h.1
    obtain ⟨hlabel, hstar, hindex⟩ := isLabel_decimal i
    have hwording : (Key.atom (.int i)).wording = Text.decimal 1 i := wording_index i
    rw [hwording]
    have hlength : Text.signed i = Text.decimal 1 i := by simp [Text.signed]
    exact ⟨hlabel, hstar, rfl, .inr ⟨i, rfl, hindex (hlength ▸ h.2)⟩⟩

end Key

end Redaction
