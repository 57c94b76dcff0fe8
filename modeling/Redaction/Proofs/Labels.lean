import Redaction.Expansion
import Redaction.Proofs.Instantiation

/-!
# Labels for wildcards

A path with a wildcard is made concrete with a key as the label, and the text of the key is asked
for only then. So a path takes any key if it has no wildcard segment, and otherwise the keys that
have a text: those without an integer of too many digits. At a key that it does not take a run
ends, before the censor is asked.
-/

namespace Redaction

/-- The path can be made concrete with the key in the place of its wildcard. -/
def Path.takes (path : String) (key : Key) : Bool :=
  !(segments path).contains wildcard || key.hasText

theorem Path.takes_of_hasText {path : String} {key : Key} (h : key.hasText = true) :
    takes path key = true := by
  simp [takes, h]

theorem Path.concrete_display (path : String) (key : Key) :
    concrete path key.display =
      if takes path key then .ok (instantiate path key.wording) else .error .longInteger := by
  by_cases hwild : wildcard ∈ segments path
  · cases htext : key.hasText <;> simp [concrete, takes, Key.display, hwild, htext, Except.map]
  · simp [concrete, takes, hwild, instantiate_of_no_wildcard hwild]

namespace Key

theorem hasText_of_isNameable {k : Key} (h : k.isNameable = true) : k.hasText = true := by
  match k, h with
  | .atom (.text s), _ => rfl
  | .atom (.int n), h =>
    simp only [isNameable, Bool.and_eq_true, decide_eq_true_eq] at h
    obtain ⟨i, rfl⟩ := Int.eq_ofNat_of_zero_le h.1
    have hlength : Text.signed i = Text.decimal 1 i := by simp [Text.signed]
    rw [hlength, Text.toList_decimal] at h
    simpa [hasText, Atom.hasText, Text.isShort] using h.2

end Key

section

variable {censor : Censor} {v : Value} {path : String} {key : Key} {s : Workspace}

/-- Under a path that takes the key, the censor is asked at the concrete path. -/
theorem Censor.replacementAt_of_takes (h : Path.takes path key = true) :
    censor.replacementAt v path key =
      censor.replacement v (Path.instantiate path key.wording) := by
  simp only [replacementAt, Path.concrete_display, h]
  rfl

theorem Censor.replacementAt_of_not_takes (h : Path.takes path key ≠ true) :
    censor.replacementAt v path key s = .error .longInteger s := by
  simp only [replacementAt, Path.concrete_display, h]
  rfl

end

end Redaction
