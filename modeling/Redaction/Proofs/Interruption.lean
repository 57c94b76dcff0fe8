import Redaction.Proofs.Matches

/-!
# Interrupted expansions

A censor function may fail at one of the matches of a wildcard. The expansion then ends with its
failure and does not go on to the matches after it. Those before it have been answered and stored,
so the value under edit is left in between: redacted up to the match that failed, and from there on
as it was before the expansion.

Main statement: `Run.expand_interrupted`.
-/

namespace Redaction.Run

open Value

variable {censor : Censor} {path : String}

theorem answerEach_fails {f : CensorFunction} {m : Match} {later : List Match} {s : Workspace}
    {failure : Failure} (htakes : Path.takes path m.label = true)
    (h : f s.consultations (m.question path) s.next = .error failure) :
    answerEach (.function f) path (m :: later) s =
      .error failure { s with consultations := m.question path :: s.consultations } := by
  have hask : (Censor.function f).replacement m.value (Path.instantiate path m.label.wording) s =
      .error failure { s with consultations := m.question path :: s.consultations } := by
    have hfails : f s.consultations ⟨m.value, Path.instantiate path m.label.wording⟩ s.next =
        .error failure := h
    simp only [Censor.replacement, bind, EStateM.bind, get, getThe, MonadStateOf.get, EStateM.get,
      set, EStateM.set, hfails, ofExcept]
    rfl
  rw [answerEach, Censor.replacementAt_of_takes htakes]
  simp only [bind, EStateM.bind, hask]

section

variable {container root : Value} {rest before : List String} {done later : List Match} {m : Match}

/-- On a tree, a wildcard whose censor function fails at some match, after it returned for all those
before it, is expanded up to there, provided that the keys so far have a text. The failure is that
of the censor, and no question is asked after it. The slots of the matches before hold their
answers. All else is as it was before the expansion, the slots of that match and of the later ones
included. An answer is held as it stands: it changes only where it has a container as a part that a
later one of these matches is stored in. -/
theorem expand_interrupted {f : CensorFunction} {next n : Ident} {failure : Failure}
    (hroot : root.IsTree) (hbefore : Path.wildcard ∉ before)
    (hrest : rest.getLast? ≠ some Path.wildcard)
    (hshort : Path.HasShortNumerals (before ++ Path.wildcard :: rest))
    (hfound : root.find? before = .ok (some container))
    (hms : container.matchesBelow rest = done ++ m :: later)
    (htakes : ∀ a ∈ done ++ [m], Path.takes path a.label = true)
    (hreturns : (Censor.function f).replay next (done.map (Match.question path)).reverse = .ok n)
    (hraises : f (done.map (Match.question path)).reverse (m.question path) n = .error failure) :
    ∃ answer held t,
      expand (.function f) path (before ++ Path.wildcard :: rest) (.start root next) =
        .error failure t ∧
      t.consultations.reverse = (done ++ [m]).map (Match.question path) ∧
      f.Gives path answer [] next done ∧
      t.writes.reverse = (done.flatMap fun a => a.writes (answer a.label)) ∧
      t.root = root.setAt (root.trail before)
        (container.answeredUnder rest (done.map Match.label) held) ∧
      Standing (fun a => a.writes (answer a.label)) (fun a => answer a.label)
        (fun a => held a.label) done ∧
      ((∀ a ∈ done, ∀ b ∈ done, ∀ w ∈ b.writes (answer b.label), w.target ∉ (answer a.label).ids) →
        ∀ a ∈ done, held a.label = answer a.label) := by
  have hwalk := (find?_eq_some.mp hfound).1
  have hkeys := distinct_children (hroot.walk hwalk).keyed
  have hlabels := (List.pairwise_append.mp (pairwise_labels hkeys hms)).1
  obtain ⟨found, hfound', hexpand⟩ := @expand_eq_answerEach (.function f) path rest before
    (.start root next) hroot hbefore hshort
  obtain rfl : found = some container := Except.ok.inj (hfound'.symm.trans hfound)
  obtain ⟨answer, hgives, hdone⟩ := answerEach_returns (s := .start root next) hlabels
    (fun a ha => htakes a (List.mem_append_left _ ha)) rfl
    ((congrArg _ (List.append_nil _)).trans hreturns)
  obtain ⟨held, hheld⟩ := exists_standing Match.label hlabels
    (fun a => a.writes (answer a.label)) fun a => answer a.label
  have hhalts : answerEach (.function f) path (container.matchesBelow rest) (.start root next) =
      .error failure
        { root := root.afterAll (done.flatMap fun a => a.writes (answer a.label))
          next := n
          writes := (done.flatMap fun a => a.writes (answer a.label)).reverse ++ []
          consultations :=
            m.question path :: ((done.map (Match.question path)).reverse ++ []) } := by
    rw [hms, answerEach_append]
    simp only [bind, EStateM.bind, hdone]
    rw [answerEach_fails (htakes m (by simp)) (by simpa [Workspace.start] using hraises)]
    rfl
  exact ⟨answer, held, _, hexpand.trans hhalts, by simp, hgives, by simp,
    hroot.afterAll_visited hwalk hrest hms hheld, hheld, hheld.eq⟩

end

end Redaction.Run

namespace Redaction

namespace Sample

/-- Wraps the first value in a new list, and fails at the next one. -/
def encloseOnce : CensorFunction := fun asked question next =>
  if asked.isEmpty then .ok (.list next [question.value]) else .error (.censorFailed question.path)

end Sample

/-- The first of two slots is redacted, and the second one keeps what it held. -/
theorem Run.expand_interrupted_drawers :
    Sample.drawers.IsTree ∧ Path.wildcard ∉ ["rows"] ∧ ["0", "k"].getLast? ≠ some Path.wildcard ∧
      Path.HasShortNumerals (["rows"] ++ Path.wildcard :: ["0", "k"]) ∧
      ∃ t, expand (.function Sample.encloseOnce) "rows.*.0.k"
          (["rows"] ++ Path.wildcard :: ["0", "k"]) (.start Sample.drawers 6) =
            .error (.censorFailed "rows.1.0.k") t ∧
        t.consultations.reverse =
          [⟨.atom (.int 1), "rows.0.0.k"⟩, ⟨.atom (.int 2), "rows.1.0.k"⟩] ∧
        t.root.find? ["rows", "0", "0", "k"] = .ok (some (.list 6 [.atom (.int 1)])) ∧
        t.root.find? ["rows", "1", "0", "k"] = .ok (some (.atom (.int 2))) := by
  have htree : Sample.drawers.IsTree := ⟨by decide, by decide, by decide⟩
  have hbefore : Path.wildcard ∉ ["rows"] := by decide
  have hrest : ["0", "k"].getLast? ≠ some Path.wildcard := by decide
  have hshort : Path.HasShortNumerals (["rows"] ++ Path.wildcard :: ["0", "k"]) := by decide
  let row : Value := .dict 3 [(.text "k", .atom (.int 1))]
  let box : Value := .dict 5 [(.text "k", .atom (.int 2)), (.text "j", .null)]
  let rows : Value := .node 1 (.tuple .plain) none none (indexed
    [.node 2 (.tuple .plain) none none (indexed [row]), .dict 4 [(.text "0", box)], .null])
  have hfound : Sample.drawers.find? ["rows"] = .ok (some rows) := rfl
  have hms : rows.matchesBelow ["0", "k"] = [⟨.index 0, .atom (.int 1), row, [.text "k"]⟩] ++
      ⟨.index 1, .atom (.int 2), box, [.text "k"]⟩ :: [] := by cbv
  have htakes : [Key.index 0, .index 1].all (Path.takes "rows.*.0.k") = true := by cbv
  have hreturns : (Censor.function Sample.encloseOnce).replay 6
      [⟨.atom (.int 1), "rows.0.0.k"⟩] = .ok 7 := by cbv
  have hquestions : [(⟨.index 0, .atom (.int 1), row, [.text "k"]⟩ : Match),
      ⟨.index 1, .atom (.int 2), box, [.text "k"]⟩].map (Match.question "rows.*.0.k") =
        [⟨.atom (.int 1), "rows.0.0.k"⟩, ⟨.atom (.int 2), "rows.1.0.k"⟩] := by cbv
  obtain ⟨hfirst, hsecond⟩ := List.cons.inj hquestions
  obtain ⟨hsecond, _⟩ := List.cons.inj hsecond
  rw [← hfirst] at hreturns
  have hraises : Sample.encloseOnce
      [Match.question "rows.*.0.k" ⟨.index 0, .atom (.int 1), row, [.text "k"]⟩]
      (Match.question "rows.*.0.k" ⟨.index 1, .atom (.int 2), box, [.text "k"]⟩) 7 =
        .error (.censorFailed "rows.1.0.k") := by rw [hsecond]; rfl
  obtain ⟨_, _, t, hrun, hasked, _⟩ :=
    expand_interrupted htree hbefore hrest hshort hfound hms
      (by simpa using htakes) hreturns hraises
  have hruns : ∃ s, expand (.function Sample.encloseOnce) "rows.*.0.k"
      (["rows"] ++ Path.wildcard :: ["0", "k"]) (.start Sample.drawers 6) =
        .error (.censorFailed "rows.1.0.k") s ∧
      s.root.find? ["rows", "0", "0", "k"] = .ok (some (.list 6 [.atom (.int 1)])) ∧
      s.root.find? ["rows", "1", "0", "k"] = .ok (some (.atom (.int 2))) :=
    ⟨⟨Sample.drawers.after ⟨3, .text "k", some (.list 6 [.atom (.int 1)])⟩, 7, _, _⟩, by cbv,
      by cbv, by cbv⟩
  obtain ⟨s, hs, hslots⟩ := hruns
  obtain ⟨_, rfl⟩ := EStateM.Result.error.inj (hrun.symm.trans hs)
  exact ⟨htree, hbefore, hrest, hshort, t, hrun, hasked.trans hquestions, hslots⟩

end Redaction
