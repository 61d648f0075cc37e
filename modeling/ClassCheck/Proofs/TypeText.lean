import ClassCheck.Ty
import Mathlib.Logic.Function.Basic

/-!
# Types and their texts

Reading takes exactly one closing pair of brackets off a text, and writing puts it back. So every
text is the text of the type that is read from it. The other way round, a type is lost only if it
is no array and its name ends in brackets, which are then taken for those of an array.
-/

namespace ClassCheck

namespace Ty

theorem parse_brackets (stem : String) : parse (stem ++ "[]") = ⟨stem, true⟩ := by
  have hreverse : (stem ++ "[]").toList.reverse = ']' :: '[' :: stem.toList.reverse := by
    rw [String.toList_append, List.reverse_append]
    rfl
  rw [parse, hreverse]
  simp

theorem parse_plain {s : String} (h : ∀ stem, s ≠ stem ++ "[]") : parse s = plain s := by
  rw [parse]
  split
  · next stem hstem =>
    have hs : s.toList = stem.reverse ++ ['[', ']'] := by
      rw [← List.reverse_reverse s.toList, hstem]
      simp
    refine absurd (String.toList_inj.mp ?_) (h (String.ofList stem.reverse))
    rw [hs, String.toList_append, String.toList_ofList]
    rfl
  · rfl

theorem parse_cases (s : String) :
    (∃ stem, s = stem ++ "[]" ∧ parse s = ⟨stem, true⟩) ∨
      (∀ stem, s ≠ stem ++ "[]") ∧ parse s = plain s := by
  by_cases h : ∃ stem, s = stem ++ "[]"
  · obtain ⟨stem, rfl⟩ := h
    exact .inl ⟨stem, rfl, parse_brackets stem⟩
  · rw [not_exists] at h
    exact .inr ⟨h, parse_plain h⟩

theorem text_parse (s : String) : (parse s).text = s := by
  obtain ⟨stem, rfl, hparse⟩ | ⟨-, hparse⟩ := parse_cases s
  · exact congrArg text hparse
  · exact congrArg text hparse

theorem parse_text_iff (t : Ty) :
    parse t.text = t ↔ t.isArray = true ∨ ¬ ∃ stem, t.name = stem ++ "[]" := by
  obtain ⟨name, isArray⟩ := t
  cases isArray with
  | true => exact iff_of_true (parse_brackets name) (.inl rfl)
  | false =>
    change parse name = plain name ↔ _ ∨ ¬ ∃ stem, name = stem ++ "[]"
    obtain ⟨stem, hname, hparse⟩ | ⟨hname, hparse⟩ := parse_cases name
    · have hlost : parse name ≠ plain name := by
        rw [hparse]
        exact fun h => Bool.noConfusion (congrArg isArray h)
      exact iff_of_false hlost (by simp [hname])
    · exact iff_of_true hparse (.inr (not_exists.mpr hname))

end Ty

/-- Every text is that of the type read from it, and so no two texts are read as the same type. A
type is read back from its text unless it is no array and its name ends in brackets. -/
theorem type_text_round_trips :
    (∀ s, (Ty.parse s).text = s) ∧
    (∀ t : Ty, Ty.parse t.text = t ↔ t.isArray = true ∨ ¬ ∃ stem, t.name = stem ++ "[]") ∧
    Function.Injective Ty.parse :=
  ⟨Ty.text_parse, Ty.parse_text_iff, Function.LeftInverse.injective Ty.text_parse⟩

end ClassCheck
