import Redaction.Proofs.Instantiation

/-!
# Spelling keys

Which lists of keys an accepted path text can address: all that are not empty, of keys that are not
empty and have no bracket in them. Such a key is spelled as a group in brackets in which each
character stands between two quotes of the kind that it is not itself. The grammar looks for two
dots in a row inside quotes too; in a spelled path a quote stands on both sides of every dot.

Main statement: `Path.addresses_iff`.
-/

namespace Redaction.Path

def quoteFor (c : Char) : Char := if c = '\x27' then '\x22' else '\x27'

/-- Characters that are each put between quotes. -/
def quoted (cs : List Char) : List Char := cs.flatMap fun c => [quoteFor c, c, quoteFor c]

def spelled (keys : List String) : List Char :=
  keys.flatMap fun key => '[' :: (quoted key.toList ++ [']'])

def spell (keys : List String) : String := String.ofList (spelled keys)

section

variable {c : Char} {cs rest : List Char} {key : String} {keys : List String}

theorem quoteFor_ne (c : Char) : c ≠ quoteFor c := by
  unfold quoteFor
  split
  · rename_i h
    rw [h]
    decide
  · assumption

theorem isQuote_quoteFor (c : Char) : isQuote (quoteFor c) = true := by
  unfold quoteFor
  split <;> rfl

theorem quoteFor_cases (c : Char) : quoteFor c = '\x22' ∨ quoteFor c = '\x27' := by
  unfold quoteFor
  split
  · exact .inl rfl
  · exact .inr rfl

theorem quoted_cons (c : Char) (cs : List Char) :
    quoted (c :: cs) = quoteFor c :: c :: quoteFor c :: quoted cs := rfl

theorem spelled_cons (key : String) (keys : List String) :
    spelled (key :: keys) = '[' :: (quoted key.toList ++ ']' :: spelled keys) := by
  simp [spelled]

theorem mem_quoted (h : c ∈ quoted cs) : c = '\x22' ∨ c = '\x27' ∨ c ∈ cs := by
  obtain ⟨d, hd, hc⟩ := List.mem_flatMap.mp h
  simp only [List.mem_cons, List.not_mem_nil, or_false] at hc
  rcases hc with rfl | rfl | rfl
  · exact (quoteFor_cases d).imp_right .inl
  · exact .inr (.inr hd)
  · exact (quoteFor_cases d).imp_right .inl

theorem not_mem_quoted (hquote : isQuote c = false) (h : c ∉ cs) : c ∉ quoted cs := by
  intro mem
  rcases mem_quoted mem with rfl | rfl | mem
  · cases hquote
  · cases hquote
  · exact h mem

theorem unquoted_quoted (cs : List Char) : unquoted none (quoted cs) = cs := by
  induction cs with
  | nil => rfl
  | cons c others ih =>
    rw [quoted_cons, unquoted, if_pos (isQuote_quoteFor c), unquoted, if_neg (quoteFor_ne c),
      unquoted, if_pos rfl, ih]

theorem hasDoubleDot_quoted (cs rest : List Char) :
    hasDoubleDot (quoted cs ++ rest) = hasDoubleDot rest := by
  induction cs with
  | nil => rfl
  | cons c others ih =>
    have hquote : quoteFor c ≠ '.' := by
      rcases quoteFor_cases c with h | h <;> rw [h] <;> decide
    rw [quoted_cons]
    simp only [List.cons_append]
    rw [hasDoubleDot_cons hquote, hasDoubleDot_cons_cons, hasDoubleDot_cons hquote, ih]
    simp [hquote]

theorem hasDoubleDot_spelled (keys : List String) : hasDoubleDot (spelled keys) = false := by
  induction keys with
  | nil => rfl
  | cons key others ih =>
    rw [spelled_cons, hasDoubleDot_cons (by decide), hasDoubleDot_quoted,
      hasDoubleDot_cons (by decide), ih]

end

namespace Layout

variable {body : Stretch} {l : Layout}

/-- A group in front of a layout gives one more segment in front of the others, unless there is
nothing in it. -/
theorem segments_enclose : (l.enclose body).segments =
    (nonempty (unquoted none body.1)).map String.ofList ++ l.segments := by
  simp [segments, enclose, Stretch.empty, between]

end Layout

theorem mem_of_mem_splitOn {run piece : List Char} {c : Char} (h : piece ∈ run.splitOn '.')
    (hc : c ∈ piece) : c ∈ run := by
  induction run generalizing piece with
  | nil =>
    obtain rfl : piece = [] := by simpa using h
    exact hc
  | cons d others ih =>
    rw [List.splitOn, List.splitOnP_cons_eq_if_modifyHead, ← List.splitOn] at h
    split at h
    · rcases List.mem_cons.mp h with rfl | h
      · cases hc
      · exact List.mem_cons_of_mem d (ih h hc)
    · obtain ⟨first, later, hsplit⟩ :=
        List.exists_cons_of_ne_nil (List.splitOnP_ne_nil (· == '.') others)
      rw [← List.splitOn] at hsplit
      rw [hsplit, List.modifyHead_cons] at h
      rcases List.mem_cons.mp h with rfl | h
      · rcases List.mem_cons.mp hc with rfl | hc
        · exact List.mem_cons_self
        · exact List.mem_cons_of_mem d (ih (hsplit ▸ List.mem_cons_self) hc)
      · exact List.mem_cons_of_mem d (ih (hsplit ▸ List.mem_cons_of_mem first h) hc)

theorem mem_of_mem_unquoted {quote : Option Char} {body : List Char} {c : Char}
    (h : c ∈ unquoted quote body) : c ∈ body := by
  fun_induction unquoted quote body with
  | case1 => simp at h
  | case2 d rest _ ih => exact List.mem_cons_of_mem d (ih h)
  | case3 d rest _ ih =>
    rcases List.mem_cons.mp h with rfl | h
    · exact List.mem_cons_self
    · exact List.mem_cons_of_mem d (ih h)
  | case4 rest opened ih => exact List.mem_cons_of_mem _ (ih h)
  | case5 opened d rest _ ih =>
    rcases List.mem_cons.mp h with rfl | h
    · exact List.mem_cons_self
    · exact List.mem_cons_of_mem d (ih h)

/-- The segments of a laid out text are not empty, and their characters come from between the
brackets. -/
theorem Layout.exists_of_mem_segments {l : Layout} {segment : String} (h : segment ∈ l.segments) :
    ∃ cs : List Char, segment = String.ofList cs ∧ cs ≠ [] ∧ '[' ∉ cs ∧ ']' ∉ cs := by
  obtain ⟨cs, hcs, rfl⟩ := List.mem_map.mp h
  have hbetween : ∀ run : Stretch, cs ∈ between run.1 → cs ≠ [] ∧ '[' ∉ cs ∧ ']' ∉ cs := by
    intro run mem
    have hne : cs ≠ [] := by simpa using (List.mem_filter.mp mem).2
    exact ⟨hne, fun hc => run.2.1 (mem_of_mem_splitOn (List.mem_filter.mp mem).1 hc),
      fun hc => run.2.2 (mem_of_mem_splitOn (List.mem_filter.mp mem).1 hc)⟩
  refine ⟨cs, rfl, ?_⟩
  rcases List.mem_append.mp hcs with hfirst | hgroups
  · exact hbetween l.first hfirst
  · obtain ⟨group, _, hgroup⟩ := List.mem_flatMap.mp hgroups
    rcases List.mem_append.mp hgroup with hbody | hrun
    · unfold nonempty at hbody
      split at hbody
      · simp at hbody
      · rename_i hne
        obtain rfl : cs = unquoted none group.1.1 := by simpa using hbody
        exact ⟨hne, fun hc => group.1.2.1 (mem_of_mem_unquoted hc),
          fun hc => group.1.2.2 (mem_of_mem_unquoted hc)⟩
    · exact hbetween group.2 hrun

theorem exists_layout_spelled {keys : List String}
    (h : ∀ key ∈ keys, key ≠ "" ∧ '[' ∉ key.toList ∧ ']' ∉ key.toList) :
    ∃ l : Layout, l.text = spelled keys ∧ l.segments = keys := by
  induction keys with
  | nil => exact ⟨.empty, rfl, rfl⟩
  | cons key others ih =>
    obtain ⟨l, htext, hsegments⟩ := ih fun k mem => h k (List.mem_cons_of_mem _ mem)
    obtain ⟨hne, hopen, hclose⟩ := h key List.mem_cons_self
    have hchars : key.toList ≠ [] := by simpa using hne
    refine ⟨l.enclose ⟨quoted key.toList, not_mem_quoted rfl hopen, not_mem_quoted rfl hclose⟩,
      ?_, ?_⟩
    · rw [Layout.text_enclose, htext, spelled_cons]
    · rw [Layout.segments_enclose, hsegments, unquoted_quoted, nonempty, if_neg hchars]
      simp

theorem means_spell {keys : List String} (hkeys : keys ≠ [])
    (h : ∀ key ∈ keys, key ≠ "" ∧ '[' ∉ key.toList ∧ ']' ∉ key.toList) :
    Means (spell keys) keys := by
  obtain ⟨l, htext, hsegments⟩ := exists_layout_spelled h
  have htoList : (spell keys).toList = spelled keys := by simp [spell]
  refine ⟨?_, ?_, hkeys, l, by rw [htext, htoList], hsegments⟩
  · intro hempty
    obtain ⟨key, others, rfl⟩ := List.exists_cons_of_ne_nil hkeys
    rw [hempty, spelled_cons] at htoList
    simp at htoList
  · rw [htoList, ← hasDoubleDot_iff, hasDoubleDot_spelled]
    decide

/-- The lists of keys that accepted path texts address. -/
theorem addresses_iff (keys : List String) :
    (∃ path, check path = .ok keys) ↔
      keys ≠ [] ∧ ∀ key ∈ keys, key ≠ "" ∧ '[' ∉ key.toList ∧ ']' ∉ key.toList := by
  have hcheck : ∀ path, check path = .ok keys ↔ Means path keys := by
    intro path
    rw [means_iff, check]
    by_cases h : accepts path = true <;> simp [h]
  simp only [hcheck]
  constructor
  · rintro ⟨path, _, _, hkeys, l, _, rfl⟩
    refine ⟨hkeys, fun key mem => ?_⟩
    obtain ⟨cs, rfl, hne, hopen, hclose⟩ := l.exists_of_mem_segments mem
    refine ⟨?_, ?_, ?_⟩
    · simpa using hne
    · rwa [String.toList_ofList]
    · rwa [String.toList_ofList]
  · rintro ⟨hkeys, h⟩
    exact ⟨spell keys, means_spell hkeys h⟩

example : check (spell ["a..b", "it's \x22*\x22", "*"]) = .ok ["a..b", "it's \x22*\x22", "*"] := by
  decide

end Redaction.Path
