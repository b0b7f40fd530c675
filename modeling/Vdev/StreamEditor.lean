import Vdev.Shell

/-!
The stream editor with a command that deletes what a pattern matches. The patterns are basic regular
expressions of characters, dots and stars. A match is the leftmost one, and the longest there. What
other commands do is a parameter.
-/
namespace Vdev.StreamEditor

open CString Shell

/-- A character of a pattern, and whether a star follows it. -/
structure Item where
  char : Char
  starred : Bool

/-- A dot is any character. -/
def Item.fits (item : Item) (c : Char) : Bool := item.char == '.' || item.char == c

def items : CStr → List Item
  | [] => []
  | c :: '*' :: pattern => ⟨c, true⟩ :: items pattern
  | c :: pattern => ⟨c, false⟩ :: items pattern

/-- What can be left of a text behind any number of characters that an item fits. -/
def starRests (item : Item) : CStr → List CStr
  | [] => [[]]
  | c :: s => (c :: s) :: if item.fits c then starRests item s else []

/-- What can be left of a text behind a match at its beginning. -/
def rests : List Item → CStr → List CStr
  | [], s => [s]
  | item :: more, s =>
    if item.starred then (starRests item s).flatMap (rests more)
    else
      match s with
      | [] => []
      | c :: s => if item.fits c then rests more s else []

/-- The length of the longest match at the beginning of a text, 0 when there is none. -/
def matchLength (pattern s : CStr) : ℕ :=
  ((rests (items pattern) s).map (s.length - ·.length)).foldr max 0

/-- The text without the matches, where the next `skip` characters belong to a match. -/
def deleteFrom (pattern : CStr) : ℕ → CStr → CStr
  | _, [] => []
  | 0, c :: s =>
    match matchLength pattern (c :: s) with
    | 0 => c :: deleteFrom pattern 0 s
    | k + 1 => deleteFrom pattern k s
  | skip + 1, _ :: s => deleteFrom pattern skip s

/-- `s/pattern//g` on a line. -/
def deleteAll (pattern line : CStr) : CStr := deleteFrom pattern 0 line

/-- A pattern of characters, dots and stars. -/
def Basic (pattern : CStr) : Prop :=
  pattern ≠ [] ∧ (∀ c ∈ pattern, c ∉ "[\\/\n".toList) ∧ pattern.head? ≠ some '^' ∧
    pattern.head? ≠ some '*' ∧ pattern.getLast? ≠ some '$' ∧ ¬"**".toList <:+: pattern

instance (pattern : CStr) : Decidable (Basic pattern) :=
  inferInstanceAs (Decidable (_ ∧ (∀ c ∈ pattern, _) ∧ _ ∧ _ ∧ _ ∧ _))

def deletion (pattern : CStr) : CStr := "s/".toList ++ pattern ++ "//g".toList

structure Sed where
  run : CStr → CStr → CStr
  run_deletion : ∀ pattern input, Basic pattern →
    run (deletion pattern) input = sedLines (deleteAll pattern) input

/-- Without a star, a pattern matches texts of its own length. -/
def fits : CStr → CStr → Bool
  | [], _ => true
  | _ :: _, [] => false
  | a :: pattern, c :: s => (a == '.' || a == c) && fits pattern s

def Occurs (pattern s : CStr) : Prop :=
  ∃ before after, s = before ++ after ∧ fits pattern after = true

theorem fits_cons_cons (a c : Char) (pattern s : CStr) :
    fits (a :: pattern) (c :: s) = ((a == '.' || a == c) && fits pattern s) := rfl

theorem deleteFrom_nil (pattern : CStr) (skip : ℕ) : deleteFrom pattern skip [] = [] := by
  cases skip <;> rfl

theorem deleteFrom_cons (pattern : CStr) (c : Char) (s : CStr) :
    deleteFrom pattern 0 (c :: s) =
      match matchLength pattern (c :: s) with
      | 0 => c :: deleteFrom pattern 0 s
      | k + 1 => deleteFrom pattern k s := rfl

theorem deleteFrom_skip (pattern : CStr) (skip : ℕ) (c : Char) (s : CStr) :
    deleteFrom pattern (skip + 1) (c :: s) = deleteFrom pattern skip s := rfl

theorem fits_append (pattern rest : CStr) : fits pattern (pattern ++ rest) = true := by
  induction pattern with
  | nil => rfl
  | cons a pattern ih =>
    rw [List.cons_append, fits_cons_cons, ih, beq_self_eq_true, Bool.or_true, Bool.and_true]

theorem length_le_of_fits {pattern s : CStr} (h : fits pattern s = true) :
    pattern.length ≤ s.length := by
  induction pattern generalizing s with
  | nil => exact Nat.zero_le _
  | cons a pattern ih =>
    cases s with
    | nil => cases h
    | cons c s =>
      rw [fits_cons_cons, Bool.and_eq_true] at h
      exact Nat.succ_le_succ (ih h.2)

section Plain

variable {pattern : CStr} (hstar : '*' ∉ pattern)

include hstar

theorem items_plain : items pattern = pattern.map (⟨·, false⟩) := by
  induction pattern with
  | nil => rfl
  | cons c pattern ih =>
    have hrest := ih (fun hmem => hstar (List.mem_cons_of_mem _ hmem))
    rw [items, hrest]
    · rfl
    · rintro rest rfl
      exact hstar (by simp)

omit hstar in
theorem rests_plain (pattern s : CStr) : rests (pattern.map (⟨·, false⟩)) s =
    if fits pattern s then [s.drop pattern.length] else [] := by
  induction pattern generalizing s with
  | nil => rfl
  | cons a pattern ih =>
    cases s with
    | nil => rfl
    | cons c s =>
      rw [List.map_cons, rests, if_neg Bool.false_ne_true]
      change (if (a == '.' || a == c) = true then _ else _) = _
      rw [ih, fits_cons_cons]
      by_cases hc : (a == '.' || a == c) = true
      · rw [if_pos hc, hc, Bool.true_and]
        rfl
      · rw [if_neg hc, Bool.eq_false_of_not_eq_true hc, Bool.false_and, if_neg Bool.false_ne_true]

theorem matchLength_plain (s : CStr) :
    matchLength pattern s = if fits pattern s then pattern.length else 0 := by
  rw [matchLength, items_plain hstar, rests_plain]
  split_ifs with hfits
  · have hle := length_le_of_fits hfits
    rw [List.map_singleton, List.foldr_cons, List.foldr_nil, List.length_drop]
    omega
  · rfl

variable (hne : pattern ≠ [])

include hne

theorem deleteFrom_fits (c : Char) (s : CStr) (h : fits pattern (c :: s) = true) :
    deleteFrom pattern 0 (c :: s) = deleteFrom pattern (pattern.length - 1) s := by
  have hpos := List.length_pos_iff.mpr hne
  have hlen : matchLength pattern (c :: s) = pattern.length - 1 + 1 := by
    rw [matchLength_plain hstar, if_pos h]
    omega
  rw [deleteFrom_cons, hlen]

omit hne in
theorem deleteFrom_not_fits (c : Char) (s : CStr) (h : fits pattern (c :: s) = false) :
    deleteFrom pattern 0 (c :: s) = c :: deleteFrom pattern 0 s := by
  have hlen : matchLength pattern (c :: s) = 0 := by
    rw [matchLength_plain hstar, h]
    rfl
  rw [deleteFrom_cons, hlen]

end Plain

theorem deleteFrom_drop (pattern : CStr) (skip : ℕ) (s : CStr) :
    deleteFrom pattern skip s = deleteFrom pattern 0 (s.drop skip) := by
  induction s generalizing skip with
  | nil => rw [List.drop_nil, deleteFrom_nil, deleteFrom_nil]
  | cons c s ih =>
    cases skip with
    | zero => rfl
    | succ skip => rw [deleteFrom_skip, ih, List.drop_succ_cons]

/-- What is left are characters of the text in their order. -/
theorem deleteFrom_sublist (pattern : CStr) (skip : ℕ) (s : CStr) :
    (deleteFrom pattern skip s).Sublist s := by
  induction s generalizing skip with
  | nil =>
    rw [deleteFrom_nil]
  | cons c s ih =>
    cases skip with
    | zero =>
      rw [deleteFrom_cons]
      split
      · exact (ih 0).cons_cons c
      · exact (ih _).cons c
    | succ skip =>
      rw [deleteFrom_skip]
      exact (ih skip).cons c

/-- A text that begins with the pattern itself. -/
theorem deleteAll_append {pattern : CStr} (hstar : '*' ∉ pattern) (rest : CStr) :
    deleteAll pattern (pattern ++ rest) = deleteAll pattern rest := by
  cases hpattern : pattern with
  | nil => rfl
  | cons a tail =>
    have hfits := fits_append pattern rest
    rw [hpattern, List.cons_append] at hfits
    rw [hpattern] at hstar
    rw [deleteAll, List.cons_append, deleteFrom_fits hstar (List.cons_ne_nil _ _) a _ hfits,
      deleteFrom_drop, List.length_cons, Nat.add_sub_cancel, List.drop_left]
    rfl

theorem deleteAll_self {pattern : CStr} (hstar : '*' ∉ pattern) :
    deleteAll pattern pattern = [] := by
  have hdelete := deleteAll_append hstar []
  rw [List.append_nil] at hdelete
  rw [hdelete, deleteAll, deleteFrom_nil]

theorem deleteAll_of_not_occurs {pattern : CStr} (hstar : '*' ∉ pattern) (s : CStr)
    (h : ¬Occurs pattern s) : deleteAll pattern s = s := by
  unfold deleteAll
  induction s with
  | nil => rw [deleteFrom_nil]
  | cons c s ih =>
    have hfits : fits pattern (c :: s) = false := by
      rw [← Bool.not_eq_true]
      exact fun hfits => h ⟨[], c :: s, rfl, hfits⟩
    rw [deleteFrom_not_fits hstar c s hfits, ih]
    rintro ⟨before, after, rfl, hafter⟩
    exact h ⟨c :: before, after, rfl, hafter⟩

theorem length_deleteAll_lt {pattern : CStr} (hstar : '*' ∉ pattern) (hne : pattern ≠ [])
    (s : CStr) (h : Occurs pattern s) : (deleteAll pattern s).length < s.length := by
  obtain ⟨before, after, rfl, hafter⟩ := h
  unfold deleteAll
  induction before with
  | nil =>
    have hle := length_le_of_fits hafter
    cases hafter' : after with
    | nil =>
      rw [hafter'] at hle
      exact absurd (List.length_eq_zero_iff.mp (Nat.le_zero.mp hle)) hne
    | cons c s =>
      rw [hafter'] at hafter
      rw [List.nil_append, deleteFrom_fits hstar hne c s hafter]
      exact Nat.lt_succ_of_le (deleteFrom_sublist pattern _ s).length_le
  | cons c before ih =>
    rw [List.cons_append]
    cases hfits : fits pattern (c :: (before ++ after)) with
    | true =>
      rw [deleteFrom_fits hstar hne c _ hfits]
      exact Nat.lt_succ_of_le (deleteFrom_sublist pattern _ _).length_le
    | false =>
      rw [deleteFrom_not_fits hstar c _ hfits]
      exact Nat.succ_lt_succ ih

/-- The editor on one line that goes through a pipe. -/
theorem Sed.substituted_run (sed : Sed) {pattern line : CStr} (hbasic : Basic pattern)
    (hline : '\n' ∉ line) :
    substituted (sed.run (deletion pattern) (line ++ ['\n'])) = deleteAll pattern line := by
  have hleft : '\n' ∉ deleteAll pattern line :=
    fun hmem => hline ((deleteFrom_sublist pattern 0 line).subset hmem)
  rw [sed.run_deletion pattern _ hbasic, sedLines_line _ line hline, substituted_line _ hleft]

end Vdev.StreamEditor
