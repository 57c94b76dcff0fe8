import Redaction.Proofs.Instantiation

/-!
# How the pieces lie in a path text

The pieces of a path text, accepted or not, lie in it side by side, and what stands between them is
dots, brackets and quotes. The range of a piece begins and ends with a character of its segment. In
between, quotes may have been left out of the segment, and nothing else: a quote after the last kept
character belongs to no piece until another character is kept.

`Path.Tiles` says how a text is laid out, without the places and effects of the reader. That the
reader's pieces are laid out so is one induction over the text; what holds of positions is read off
the layout.

Main statements: `Path.tiles_pieces`, and `Path.pieces_lie_in_order` for positions.
-/

namespace Redaction.Path

/-! ## What is left out -/

inductive OmitsQuotes : List Char → List Char → Prop
  | nil : OmitsQuotes [] []
  | keep {cs text : List Char} (c : Char) (h : OmitsQuotes cs text) :
      OmitsQuotes (c :: cs) (c :: text)
  | leave {cs text : List Char} {c : Char} (hc : isQuote c = true) (h : OmitsQuotes cs text) :
      OmitsQuotes (c :: cs) text

theorem OmitsQuotes.append {cs cs' text text' : List Char} (h : OmitsQuotes cs text)
    (h' : OmitsQuotes cs' text') : OmitsQuotes (cs ++ cs') (text ++ text') := by
  induction h with
  | nil => exact h'
  | keep c _ ih => exact ih.keep c
  | leave hc _ ih => exact ih.leave hc

theorem OmitsQuotes.of_quotes {quotes : List Char} (h : ∀ c ∈ quotes, isQuote c = true) :
    OmitsQuotes quotes [] := by
  induction quotes with
  | nil => exact .nil
  | cons c others ih =>
    exact .leave (h c List.mem_cons_self) (ih fun d mem => h d (List.mem_cons_of_mem c mem))

/-- A range as it is read into a segment: character after character, with quotes left out before a
character that is not the first. -/
inductive ReadAs : List Char → List Char → Prop
  | one (c : Char) : ReadAs [c] [c]
  | more {range text quotes : List Char} (h : ReadAs range text)
      (hquotes : ∀ c ∈ quotes, isQuote c = true) (c : Char) :
      ReadAs (range ++ (quotes ++ [c])) (text ++ [c])

namespace ReadAs

variable {range text : List Char}

theorem omitsQuotes (h : ReadAs range text) : OmitsQuotes range text := by
  induction h with
  | one c => exact .keep c .nil
  | more _ hquotes c ih => exact ih.append ((OmitsQuotes.of_quotes hquotes).append (.keep c .nil))

theorem text_ne_nil (h : ReadAs range text) : text ≠ [] := by
  cases h <;> simp

theorem range_ne_nil (h : ReadAs range text) : range ≠ [] := by
  cases h <;> simp

theorem head? (h : ReadAs range text) : text.head? = range.head? := by
  induction h with
  | one c => rfl
  | more h _ c ih =>
    rw [List.head?_append_of_ne_nil _ h.text_ne_nil, List.head?_append_of_ne_nil _ h.range_ne_nil,
      ih]

theorem getLast? (h : ReadAs range text) : text.getLast? = range.getLast? := by
  cases h <;> simp

theorem length_eq_one (h : ReadAs range text) (hone : text.length = 1) : range.length = 1 := by
  cases h with
  | one c => rfl
  | more h _ c =>
    rw [List.length_append, List.length_singleton] at hone
    exact absurd (List.length_eq_zero_iff.mp (Nat.succ_injective hone)) h.text_ne_nil

end ReadAs

/-! ## Layouts -/

theorem isOrdinary_eq_false {c : Char} :
    isOrdinary c = false ↔ c = '.' ∨ c = '[' ∨ c = ']' ∨ isQuote c = true := by
  simp only [isOrdinary, Bool.and_eq_false_iff, Bool.not_eq_false', decide_eq_false_iff_not, ne_eq,
    not_not, or_assoc]

theorem isOrdinary_of_isQuote {c : Char} (h : isQuote c = true) : isOrdinary c = false :=
  isOrdinary_eq_false.mpr (.inr (.inr (.inr h)))

/-- A text that is laid out from a position on: a character is a mark between pieces, or stands in
the range of the next piece. -/
inductive Tiles : Nat → List Char → List Piece → Prop
  | nil (n : Nat) : Tiles n [] []
  | mark {n : Nat} {c : Char} {cs : List Char} {ps : List Piece} (hc : isOrdinary c = false)
      (h : Tiles (n + 1) cs ps) : Tiles n (c :: cs) ps
  | piece {n : Nat} {range text cs : List Char} {ps : List Piece} (hread : ReadAs range text)
      (h : Tiles (n + range.length) cs ps) :
      Tiles n (range ++ cs) (⟨text, n, n + range.length⟩ :: ps)

namespace Tiles

variable {n : Nat} {cs : List Char} {ps : List Piece}

theorem prepend_quotes {quotes : List Char} (hquotes : ∀ c ∈ quotes, isQuote c = true)
    (h : Tiles (n + quotes.length) cs ps) : Tiles n (quotes ++ cs) ps := by
  induction quotes generalizing n with
  | nil => exact h
  | cons c others ih =>
    refine .mark (isOrdinary_of_isQuote (hquotes c List.mem_cons_self))
      (ih (fun d mem => hquotes d (List.mem_cons_of_mem c mem)) ?_)
    rwa [Nat.add_assoc, Nat.add_comm 1, ← List.length_cons]

theorem exists_range (h : Tiles n cs ps) : ∀ p ∈ ps, ∃ before range after,
    cs = before ++ (range ++ after) ∧ ReadAs range p.text ∧ p.start = n + before.length ∧
      p.stop = p.start + range.length := by
  induction h with
  | nil => simp
  | @mark n c cs ps _ _ ih =>
    intro p mem
    obtain ⟨before, range, after, rfl, hread, hstart, hstop⟩ := ih p mem
    refine ⟨c :: before, range, after, rfl, hread, ?_, hstop⟩
    rw [hstart, List.length_cons, Nat.add_assoc, Nat.add_comm 1]
  | @piece n own text cs ps hread _ ih =>
    intro p mem
    rcases List.mem_cons.mp mem with rfl | mem
    · exact ⟨[], own, cs, rfl, hread, rfl, rfl⟩
    · obtain ⟨before, range, after, rfl, hlater, hstart, hstop⟩ := ih p mem
      refine ⟨own ++ before, range, after, by rw [List.append_assoc], hlater, ?_, hstop⟩
      rw [hstart, List.length_append, Nat.add_assoc]

theorem start_le (h : Tiles n cs ps) : ∀ p ∈ ps, n ≤ p.start := by
  intro p mem
  obtain ⟨before, _, _, _, _, hstart, _⟩ := h.exists_range p mem
  lia

theorem pairwise (h : Tiles n cs ps) : ps.Pairwise fun p q => p.stop ≤ q.start := by
  induction h with
  | nil => exact .nil
  | mark _ _ ih => exact ih
  | piece _ h ih => exact .cons (fun q mem => h.start_le q mem) ih

theorem mark_or_covered (h : Tiles n cs ps) : ∀ i c, cs[i]? = some c →
    isOrdinary c = false ∨ ∃ p ∈ ps, p.start ≤ n + i ∧ n + i < p.stop := by
  induction h with
  | nil => simp
  | @mark n d cs ps hc _ ih =>
    intro i c hi
    cases i with
    | zero =>
      obtain rfl : d = c := by simpa using hi
      exact .inl hc
    | succ i =>
      refine (ih i c (by simpa using hi)).imp_right ?_
      rintro ⟨p, mem, hstart, hstop⟩
      exact ⟨p, mem, by lia, by lia⟩
  | @piece n range text cs ps _ _ ih =>
    intro i c hi
    by_cases hlt : i < range.length
    · exact .inr ⟨_, List.mem_cons_self, Nat.le_add_right n i, Nat.add_lt_add_left hlt n⟩
    · rw [List.getElem?_append_right (Nat.le_of_not_lt hlt)] at hi
      refine (ih _ c hi).imp_right ?_
      rintro ⟨p, mem, hstart, hstop⟩
      exact ⟨p, List.mem_cons_of_mem _ mem, by lia, by lia⟩

end Tiles

/-! ## What the reader lays out -/

section

variable {place next : Place} {c : Char}

theorem isOrdinary_eq_false_of_cut (h : place.read c = (.cut, next)) : isOrdinary c = false := by
  by_contra hc
  rw [read_of_isOrdinary (by simpa using hc)] at h
  cases h

theorem isQuote_of_drop (h : place.read c = (.drop, next)) : isQuote c = true := by
  cases place with
  | outside => grind [Place.read]
  | inside quote => cases quote <;> grind [Place.read]

end

/-- What has been read since a position when a segment is under way there: its range so far, and
quotes that were left out after it. Without a segment under way nothing has. -/
inductive Underway (start : Nat) : Option Partial → List Char → Prop
  | nothing : Underway start none []
  | segment {p : Partial} {range quotes : List Char} (hread : ReadAs range p.reversed.reverse)
      (hstart : p.start = start) (hstop : p.stop = start + range.length)
      (hquotes : ∀ c ∈ quotes, isQuote c = true) : Underway start (some p) (range ++ quotes)

namespace Underway

variable {start : Nat} {current : Option Partial} {behind cs : List Char} {c : Char}

/-- The segment under way becomes a piece, and the quotes after it stand between pieces. -/
theorem close {ps : List Piece} (h : Underway start current behind)
    (hrest : Tiles (start + behind.length) cs ps) :
    Tiles start (behind ++ cs) (current.toList.map Partial.close ++ ps) := by
  cases h with
  | nothing => exact hrest
  | @segment p range quotes hread hstart hstop hquotes =>
    have hclose : p.close = ⟨p.reversed.reverse, start, start + range.length⟩ := by
      rw [Partial.close, hstart, hstop]
    rw [List.length_append, ← Nat.add_assoc] at hrest
    rw [List.append_assoc, Option.toList_some, List.map_singleton, hclose]
    exact .piece hread (hrest.prepend_quotes hquotes)

theorem leave {p : Partial} (h : Underway start (some p) behind) (hc : isQuote c = true) :
    Underway start (some p) (behind ++ [c]) := by
  cases h with
  | segment hread hstart hstop hquotes =>
    rw [List.append_assoc]
    refine .segment hread hstart hstop fun d mem => ?_
    rcases List.mem_append.mp mem with mem | mem
    · exact hquotes d mem
    · rwa [List.mem_singleton.mp mem]

/-- The quotes left out since the last kept character come to stand inside the range. -/
theorem extend (h : Underway start current behind) (c : Char) :
    Underway start (some (Partial.extend current c (start + behind.length))) (behind ++ [c]) := by
  cases h with
  | nothing => exact @segment start _ [c] [] (.one c) rfl rfl (List.forall_mem_nil _)
  | @segment p range quotes hread hstart hstop hquotes =>
    have hread' : ReadAs (range ++ (quotes ++ [c])) (c :: p.reversed).reverse := by
      rw [List.reverse_cons]
      exact hread.more hquotes c
    rw [List.append_assoc, ← List.append_nil (range ++ (quotes ++ [c]))]
    refine .segment hread' hstart ?_ (List.forall_mem_nil _)
    simp only [Partial.extend, List.length_append, List.length_singleton]
    lia

end Underway

/-- Reading on lays out what has been read since the segment under way began, and the rest. -/
theorem tiles_scanFrom {place : Place} {current : Option Partial} {start : Nat}
    {behind cs : List Char} (h : Underway start current behind) :
    Tiles start (behind ++ cs) (scanFrom place current (start + behind.length) cs) := by
  induction cs generalizing place current start behind with
  | nil =>
    rw [scanFrom, ← List.append_nil (current.toList.map _)]
    exact h.close (.nil _)
  | cons c rest ih =>
    -- The next step begins anew after a mark, and otherwise carries `c` along behind the segment.
    have hafter : ∀ {next : Place},
        Tiles (start + behind.length + 1) rest
          (scanFrom next none (start + behind.length + 1) rest) := ih .nothing
    have hcarry : ∀ {next : Place} {current : Option Partial},
        Underway start current (behind ++ [c]) →
        Tiles start (behind ++ c :: rest)
          (scanFrom next current (start + behind.length + 1) rest) := by
      intro next current h
      simpa [Nat.add_assoc] using ih h
    rw [scanFrom]
    rcases hread : place.read c with ⟨effect, next⟩
    cases effect with
    | cut => exact h.close (.mark (isOrdinary_eq_false_of_cut hread) hafter)
    | keep => exact hcarry (h.extend c)
    | drop =>
      have hquote := isQuote_of_drop hread
      cases current with
      | some p => exact hcarry (h.leave hquote)
      | none =>
        cases h
        exact .mark (isOrdinary_of_isQuote hquote) hafter

theorem tiles_pieces (path : String) : Tiles 0 path.toList (pieces path) :=
  tiles_scanFrom .nothing

/-! ## Positions -/

structure Piece.LiesIn (p : Piece) (cs : List Char) : Prop where
  start_lt_stop : p.start < p.stop
  stop_le : p.stop ≤ cs.length
  first : p.text.head? = cs[p.start]?
  last : p.text.getLast? = cs[p.stop - 1]?
  omits : OmitsQuotes (cs.extract p.start p.stop) p.text
  single : p.text.length = 1 → p.stop = p.start + 1

theorem Tiles.liesIn {cs : List Char} {ps : List Piece} (h : Tiles 0 cs ps) :
    ∀ p ∈ ps, p.LiesIn cs := by
  intro p mem
  obtain ⟨before, range, after, rfl, hread, hstart, hstop⟩ := h.exists_range p mem
  rw [Nat.zero_add] at hstart
  have hpos : 0 < range.length := List.length_pos_iff.mpr hread.range_ne_nil
  have hwithin : ∀ i < range.length, (before ++ (range ++ after))[p.start + i]? = range[i]? := by
    intro i hi
    rw [hstart, List.getElem?_append_right (Nat.le_add_right _ i), Nat.add_sub_cancel_left,
      List.getElem?_append_left hi]
  have hrange : (before ++ (range ++ after)).extract p.start p.stop = range := by
    rw [hstop, hstart, List.extract_eq_take_drop, List.drop_left, Nat.add_sub_cancel_left,
      List.take_left]
  refine ⟨by lia, ?_, ?_, ?_, ?_, ?_⟩
  · simp only [hstop, hstart, List.length_append]
    lia
  · rw [hread.head?, List.head?_eq_getElem?]
    exact (hwithin 0 hpos).symm
  · rw [hread.getLast?, List.getLast?_eq_getElem?, hstop, Nat.add_sub_assoc hpos]
    exact (hwithin _ (by lia)).symm
  · rw [hrange]
    exact hread.omitsQuotes
  · intro hone
    rw [hstop, hread.length_eq_one hone]

/-- The pieces of a path text, well formed or not, lie in it one after another, and a character that
stands in none of them is a dot, a bracket or a quote. -/
theorem pieces_lie_in_order (path : String) :
    (∀ p ∈ pieces path, p.LiesIn path.toList) ∧
      ((pieces path).Pairwise fun p q => p.stop ≤ q.start) ∧
      ∀ i c, path.toList[i]? = some c → (∀ p ∈ pieces path, ¬(p.start ≤ i ∧ i < p.stop)) →
        c = '.' ∨ c = '[' ∨ c = ']' ∨ isQuote c = true := by
  have h := tiles_pieces path
  refine ⟨h.liesIn, h.pairwise, fun i c hi houtside => ?_⟩
  rcases h.mark_or_covered i c hi with hmark | ⟨p, mem, hstart, hstop⟩
  · exact isOrdinary_eq_false.mp hmark
  · rw [Nat.zero_add] at hstart hstop
    exact absurd ⟨hstart, hstop⟩ (houtside p mem)

/-- A bracket in brackets with a quote open across it, a closing bracket that is kept, and quotes
that are kept, left out within a range and left out between pieces. -/
theorem pieces_lie_in_order_nested :
    (⟨['b', 'c', '.'], 2, 6⟩ : Piece) ∈ pieces "a[b'c.[d'e']].\x22*" ∧
      (⟨['b', 'c', '.'], 2, 6⟩ : Piece).LiesIn "a[b'c.[d'e']].\x22*".toList ∧
      ((pieces "a[b'c.[d'e']].\x22*").Pairwise fun p q => p.stop ≤ q.start) ∧
      "a[b'c.[d'e']].\x22*".toList[10]? = some '\x27' ∧
      (∀ p ∈ pieces "a[b'c.[d'e']].\x22*", ¬(p.start ≤ 10 ∧ 10 < p.stop)) ∧
      ('\x27' = '.' ∨ '\x27' = '[' ∨ '\x27' = ']' ∨ isQuote '\x27' = true) := by
  obtain ⟨hlies, hpairwise, hmarks⟩ := pieces_lie_in_order "a[b'c.[d'e']].\x22*"
  have hmem : (⟨['b', 'c', '.'], 2, 6⟩ : Piece) ∈ pieces "a[b'c.[d'e']].\x22*" := by decide
  have houtside : ∀ p ∈ pieces "a[b'c.[d'e']].\x22*", ¬(p.start ≤ 10 ∧ 10 < p.stop) := by decide
  exact ⟨hmem, hlies _ hmem, hpairwise, by decide, houtside, hmarks 10 _ (by decide) houtside⟩

end Redaction.Path
