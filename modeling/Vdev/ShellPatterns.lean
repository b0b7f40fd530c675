import Vdev.Shell
import Mathlib.Data.Nat.Find

/-!
The patterns of the shell, as `${text##pattern}` uses them: the longest prefix that matches is cut
off. What a special character matches is a parameter.
-/
namespace Vdev.ShellPatterns

open CString Shell

def PatternFree (pattern : CStr) : Prop := ∀ c ∈ pattern, c ∉ "*?[\\".toList

instance (pattern : CStr) : Decidable (PatternFree pattern) :=
  inferInstanceAs (Decidable (∀ c ∈ pattern, _))

/-- The patterns of the shell. Without special characters a pattern matches itself. -/
structure Patterns where
  isMatch : CStr → CStr → Bool
  plain : ∀ pattern text, PatternFree pattern → (isMatch pattern text = true ↔ text = pattern)

def matched (patterns : Patterns) (pattern text : CStr) : ℕ :=
  Nat.findGreatest (fun k => patterns.isMatch pattern (text.take k) = true) text.length

/-- `${text##pattern}`. -/
def strip (patterns : Patterns) (pattern text : CStr) : CStr :=
  text.drop (matched patterns pattern text)

def literal : Patterns where
  isMatch := fun pattern text => text == pattern
  plain := fun _ _ _ => beq_iff_eq

section Matched

variable (patterns : Patterns)

theorem matched_le (pattern text : CStr) : matched patterns pattern text ≤ text.length :=
  Nat.findGreatest_le _

/-- A pattern that is no more than a text. -/
theorem matched_of_isPrefix {pattern text : CStr} (h : PatternFree pattern)
    (hpre : pattern <+: text) : matched patterns pattern text = pattern.length := by
  refine Nat.findGreatest_eq_iff.mpr ⟨hpre.length_le, fun _ => ?_, fun k hlt hle hmatch => ?_⟩
  · exact (patterns.plain _ _ h).mpr (List.prefix_iff_eq_take.mp hpre).symm
  · have hlen := congrArg List.length ((patterns.plain _ _ h).mp hmatch)
    rw [List.length_take] at hlen
    omega

theorem matched_of_not_isPrefix {pattern text : CStr} (h : PatternFree pattern)
    (hpre : ¬pattern <+: text) : matched patterns pattern text = 0 := by
  refine Nat.findGreatest_eq_zero_iff.mpr fun k _ _ hmatch => hpre ?_
  rw [← (patterns.plain _ _ h).mp hmatch]
  exact List.take_prefix k text

theorem strip_append {pattern : CStr} (rest : CStr) (h : PatternFree pattern) :
    strip patterns pattern (pattern ++ rest) = rest := by
  rw [strip, matched_of_isPrefix patterns h (List.prefix_append pattern rest), List.drop_left]

theorem strip_of_not_isPrefix {pattern text : CStr} (h : PatternFree pattern)
    (hpre : ¬pattern <+: text) : strip patterns pattern text = text := by
  rw [strip, matched_of_not_isPrefix patterns h hpre, List.drop_zero]

end Matched

end Vdev.ShellPatterns
