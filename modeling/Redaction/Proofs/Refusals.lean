import Redaction.Proofs.Overwriting

/-!
# Segments that are refused

Following segments fails for one reason only: a segment that names no slot as a text has to be read
as an index, and it is a numeral of too many digits. Whatever else the segments meet, a lookup
returns. Overwriting fails where a lookup along the same segments would, but for a last segment at a
container that cannot be written, which is not read there. Overwriting that fails has written
nothing.

Main statement: `World.lookups_fail_iff`.
-/

namespace Redaction

theorem Path.index?_eq_error {segment : String} {failure : Failure} :
    index? segment = .error failure ↔ Text.isNumeral segment.toList = true ∧
      numeralLimit < segment.toList.length ∧ failure = .longNumeral segment.toList.length := by
  have hindex : index? segment =
      if (Text.isNumeral segment.toList && decide (numeralLimit < segment.toList.length)) = true
      then .error (.longNumeral segment.toList.length) else .ok (Text.ofNumeral? segment.toList) :=
    rfl
  rw [hindex]
  split
  · rename_i hlong
    rw [Bool.and_eq_true, decide_eq_true_eq] at hlong
    simp [hlong, eq_comm]
  · rename_i hshort
    rw [Bool.and_eq_true, decide_eq_true_eq] at hshort
    simpa using fun hnumeral hlong => absurd ⟨hnumeral, hlong⟩ hshort

namespace Value

/-- The segment has to be read as an index into the value, and is a numeral of too many digits. -/
def Refuses (v : Value) (segment : String) : Prop :=
  v.kind.isTraversable = true ∧ Slots.get? (Key.text segment) v.children = none ∧
    Text.isNumeral segment.toList = true ∧ numeralLimit < segment.toList.length

/-- The segments lead to a value that refuses the next one of them, with `after` still to come. -/
def Stalls (root : Value) (segments : List String) (v : Value) (segment : String)
    (after : List String) : Prop :=
  ∃ before, segments = before ++ segment :: after ∧ root.walk before = .ok (some v) ∧
    v.Refuses segment

section

variable {root v x : Value} {segment last : String} {segments before : List String}
  {failure : Failure}

theorem slot?_eq_error : v.slot? segment = .error failure ↔
    v.Refuses segment ∧ failure = .longNumeral segment.toList.length := by
  unfold slot? Refuses
  cases Slots.get? (Key.text segment) v.children with
  | some child => simp
  | none =>
    by_cases ht : v.kind.isTraversable = true
    · cases hindex : Path.index? segment with
      | error reason =>
        obtain ⟨hnumeral, hlong, rfl⟩ := Path.index?_eq_error.mp hindex
        simp [ht, hnumeral, hlong, Except.map, eq_comm]
      | ok index =>
        have hfine : ¬(Text.isNumeral segment.toList = true ∧
            numeralLimit < segment.toList.length) := by
          rintro ⟨hnumeral, hlong⟩
          rw [Path.index?_eq_error.mpr ⟨hnumeral, hlong, rfl⟩] at hindex
          cases hindex
        simp only [ht, if_true, Except.map]
        simp_all
    · simp [ht]

/-- The first segment is refused by the value itself, any other one behind the slot that the first
one names. -/
theorem stalls_cons {rest after : List String} : root.Stalls (segment :: rest) v last after ↔
    (v = root ∧ last = segment ∧ after = rest ∧ root.Refuses segment) ∨
      ∃ found child, root.slot? segment = .ok (some (found, child)) ∧
        child.Stalls rest v last after := by
  constructor
  · rintro ⟨before, hsplit, hwalk, hrefuses⟩
    cases before with
    | nil =>
      obtain ⟨rfl, rfl⟩ := List.cons.inj hsplit
      obtain rfl : root = v := by simpa [walk] using hwalk
      exact .inl ⟨rfl, rfl, rfl, hrefuses⟩
    | cons first before =>
      obtain ⟨rfl, hrest⟩ := List.cons.inj hsplit
      unfold walk at hwalk
      split at hwalk
      · cases hwalk
      · cases hwalk
      · rename_i found child hslot
        exact .inr ⟨found, child, hslot, before, hrest, hwalk, hrefuses⟩
  · rintro (⟨rfl, rfl, rfl, hrefuses⟩ | ⟨found, child, hslot, before, rfl, hwalk, hrefuses⟩)
    · exact ⟨[], rfl, rfl, hrefuses⟩
    · exact ⟨segment :: before, rfl, by rw [walk, hslot]; exact hwalk, hrefuses⟩

theorem walk_eq_error : root.walk segments = .error failure ↔
    ∃ v segment after, root.Stalls segments v segment after ∧
      failure = .longNumeral segment.toList.length := by
  induction segments generalizing root with
  | nil => simp [walk, Stalls]
  | cons first rest ih =>
    simp only [stalls_cons]
    cases hslot : root.slot? first with
    | error reason =>
      obtain ⟨hrefuses, rfl⟩ := slot?_eq_error.mp hslot
      simp only [walk, hslot, Except.error.injEq, reduceCtorEq, false_and, exists_false, or_false]
      constructor
      · rintro rfl
        exact ⟨root, first, rest, ⟨rfl, rfl, rfl, hrefuses⟩, rfl⟩
      · rintro ⟨_, _, _, ⟨_, rfl, _⟩, rfl⟩
        rfl
    | ok slot =>
      have hreads : ¬root.Refuses first := fun hrefuses => by
        rw [slot?_eq_error.mpr ⟨hrefuses, rfl⟩] at hslot
        cases hslot
      rcases slot with _ | ⟨found, child⟩
      · simp [walk, hslot, hreads]
      · simp only [walk, hslot, ih]
        simp [hreads]

theorem find?_eq_error : root.find? segments = .error failure ↔
    ∃ v segment after, root.Stalls segments v segment after ∧
      failure = .longNumeral segment.toList.length := by
  rw [← walk_eq_error, find?]
  cases root.walk segments <;> simp [Except.map]

/-- A container that can be written is asked for the slot of its last segment. -/
theorem writesAt_eq_error : v.writesAt last x = .error failure ↔
    v.kind.isWritable = true ∧ v.Refuses last ∧ failure = .longNumeral last.toList.length := by
  unfold writesAt
  by_cases hw : v.kind.isWritable = true
  swap
  · simp [hw]
  by_cases hlast : last = Path.wildcard
  · have hnumeral : Text.isNumeral Path.wildcard.toList = false := by decide
    simp [hw, hlast, Refuses, hnumeral]
  · rw [← slot?_eq_error]
    cases v.slot? last <;> simp [hw, hlast, Except.map]

theorem stalls_concat {after : List String} : root.Stalls (before ++ [last]) v segment after ↔
    (∃ rest, after = rest ++ [last] ∧ root.Stalls before v segment rest) ∨
      after = [] ∧ segment = last ∧ root.walk before = .ok (some v) ∧ v.Refuses last := by
  constructor
  · rintro ⟨way, hsplit, hwalk, hrefuses⟩
    rcases List.eq_nil_or_concat' after with rfl | ⟨rest, final, rfl⟩
    · obtain ⟨rfl, heq⟩ := List.append_inj' hsplit rfl
      obtain rfl : last = segment := by simpa using heq
      exact .inr ⟨rfl, rfl, hwalk, hrefuses⟩
    · rw [← List.cons_append, ← List.append_assoc] at hsplit
      obtain ⟨rfl, heq⟩ := List.append_inj' hsplit rfl
      obtain rfl : last = final := by simpa using heq
      exact .inl ⟨rest, rfl, way, rfl, hwalk, hrefuses⟩
  · rintro (⟨rest, rfl, way, rfl, hwalk, hrefuses⟩ | ⟨rfl, rfl, hwalk, hrefuses⟩)
    · exact ⟨way, by simp, hwalk, hrefuses⟩
    · exact ⟨before, rfl, hwalk, hrefuses⟩

/-- Overwriting fails exactly where a segment is refused, the last one by a container that can be
written. -/
theorem overwrite_eq_error : root.overwrite (before ++ [last]) x = .error failure ↔
    ∃ v segment after, root.Stalls (before ++ [last]) v segment after ∧
      (after = [] → v.kind.isWritable = true) ∧ failure = .longNumeral segment.toList.length := by
  have hsplit : (∃ v segment after, root.Stalls (before ++ [last]) v segment after ∧
      (after = [] → v.kind.isWritable = true) ∧ failure = .longNumeral segment.toList.length) ↔
      (∃ v segment after, root.Stalls before v segment after ∧
        failure = .longNumeral segment.toList.length) ∨
      ∃ v, root.walk before = .ok (some v) ∧ v.kind.isWritable = true ∧ v.Refuses last ∧
        failure = .longNumeral last.toList.length := by
    simp only [stalls_concat]
    constructor
    · rintro ⟨v, segment, after, ⟨rest, rfl, hstalls⟩ | ⟨rfl, rfl, hwalk, hrefuses⟩, hw, rfl⟩
      · exact .inl ⟨v, segment, rest, hstalls, rfl⟩
      · exact .inr ⟨v, hwalk, hw rfl, hrefuses, rfl⟩
    · rintro (⟨v, segment, rest, hstalls, rfl⟩ | ⟨v, hwalk, hw, hrefuses, rfl⟩)
      · exact ⟨v, segment, rest ++ [last], .inl ⟨rest, rfl, hstalls⟩, by simp, rfl⟩
      · exact ⟨v, last, [], .inr ⟨rfl, rfl, hwalk, hrefuses⟩, fun _ => hw, rfl⟩
  rw [hsplit, ← walk_eq_error, overwrite, List.getLast?_concat, List.dropLast_concat]
  cases root.walk before with
  | error reason => simp
  | ok found =>
    cases found with
    | none => simp
    | some v => simp [writesAt_eq_error]

end

end Value

namespace World

open Value

variable {root x : Value} {before : List String} {last : String}

/-- Overwriting fails as the search for its writes does, before the first of them is made. -/
theorem overwriting_eq_error {s t : Workspace} {failure : Failure} {segments : List String} :
    overwriting segments x s = .error failure t ↔
      t = s ∧ s.root.overwrite segments x = .error failure := by
  cases hwrites : s.root.overwrite segments x with
  | ok writes =>
    rw [overwriting_eq hwrites]
    simp
  | error reason =>
    have hroot : Run.root s = .ok s.root s := rfl
    have hfails : overwriting segments x s = .error reason s := by
      unfold overwriting
      simp only [bind, EStateM.bind, hroot, hwrites, Run.ofExcept]
      rfl
    rw [hfails]
    simp [eq_comm, and_comm]

/-- A lookup fails if and only if the segments lead to a value that refuses the next one of them,
and overwriting if and only if besides that value can be written where no segment is left. The
failure tells the length of the numeral, and overwriting has then left everything as it was. In all
other cases both return, whatever the value and the segments are. -/
theorem lookups_fail_iff (root x : Value) (before : List String) (last : String) (next : Ident) :
    (∀ segments failure, root.find? segments = .error failure ↔
      ∃ v segment after, root.Stalls segments v segment after ∧
        failure = .longNumeral segment.toList.length) ∧
    ∀ failure s, overwriting (before ++ [last]) x (.start root next) = .error failure s ↔
      s = .start root next ∧ ∃ v segment after, root.Stalls (before ++ [last]) v segment after ∧
        (after = [] → v.kind.isWritable = true) ∧
          failure = .longNumeral segment.toList.length := by
  refine ⟨fun segments failure => find?_eq_error, fun failure s => ?_⟩
  rw [overwriting_eq_error, ← overwrite_eq_error (x := x)]
  rfl

end World

namespace Sample

/-- Zero, written with a digit more than is read. -/
def zeros : String := String.ofList (List.replicate (numeralLimit + 1) '0')

end Sample

theorem World.lookups_fail_zeros :
    (Value.list 0 []).find? [Sample.zeros] = .error (.longNumeral (numeralLimit + 1)) := by
  have hlength : Sample.zeros.toList.length = numeralLimit + 1 := by simp [Sample.zeros]
  have hnumeral : Text.isNumeral Sample.zeros.toList = true := by
    simp [Sample.zeros, Text.isNumeral]
  have hstalls : (Value.list 0 []).Stalls [Sample.zeros] (.list 0 []) Sample.zeros [] :=
    ⟨[], rfl, rfl, rfl, rfl, hnumeral, by rw [hlength]; exact Nat.lt_succ_self _⟩
  refine ((lookups_fail_iff (.list 0 []) .null [] "a" 1).1 _ _).mpr ⟨_, _, _, hstalls, ?_⟩
  rw [hlength]

end Redaction
