import Vdev.Shell

/-!
What `echo` prints of a text with backslashes. Which escapes it knows is a matter of the
shell, and a parameter: `echo` reads its argument from the left, one of the escapes ends it,
and a blank or a colon is part of none. The `echo` of POSIX is an instance.
-/
namespace Vdev.EchoEscapes

open CString Shell

def IsSeparator (c : Char) : Prop := c = ' ' ∨ c = ':'

/-- An `echo` with what it makes of the escapes in a text, and whether it goes on behind the
text. -/
structure EscapingEcho extends Echo where
  expand : CStr → CStr × Bool
  print_eq : ∀ s, s.head? ≠ some '-' →
    print s = (expand s).1 ++ if (expand s).2 then ['\n'] else []
  expand_nil : expand [] = ([], true)
  expand_plain : ∀ a b, '\\' ∉ a → expand (a ++ b) = (a ++ (expand b).1, (expand b).2)
  expand_separator : ∀ a sep b, IsSeparator sep → expand (a ++ sep :: b) =
    if (expand a).2 then ((expand a).1 ++ sep :: (expand b).1, (expand b).2) else expand a

def printed (echo : EscapingEcho) (sep : Char) : List CStr → CStr × Bool
  | [] => ([], true)
  | name :: names =>
    if (echo.expand name).2 then
      ((echo.expand name).1 ++ sep :: (printed echo sep names).1, (printed echo sep names).2)
    else echo.expand name

/-- The line that a key and names are printed on. It is not ended where `echo` is. -/
def namesLine (echo : EscapingEcho) (key : CStr) (sep : Char) (names : List CStr) : CStr :=
  key ++ (printed echo sep names).1 ++ if (printed echo sep names).2 then ['\n'] else []

/-- A name whose escapes neither end the line nor `echo`. -/
def OneLine (echo : EscapingEcho) (name : CStr) : Prop :=
  (echo.expand name).2 = true ∧ '\n' ∉ (echo.expand name).1 ∧ '\x00' ∉ (echo.expand name).1

section Laws

variable (echo : EscapingEcho) {sep : Char}

theorem expand_of_plain (s : CStr) (h : '\\' ∉ s) : echo.expand s = (s, true) := by
  have hexpand := echo.expand_plain s [] h
  rwa [List.append_nil, echo.expand_nil, List.append_nil] at hexpand

theorem expand_flatMap (hsep : IsSeparator sep) (names : List CStr) :
    echo.expand (names.flatMap (· ++ [sep])) = printed echo sep names := by
  induction names with
  | nil => exact echo.expand_nil
  | cons name names ih =>
    rw [List.flatMap_cons, List.append_assoc, List.singleton_append,
      echo.expand_separator _ _ _ hsep, ih, printed]

/-- A key and names, each with a separator behind it, are printed name by name. -/
theorem print_names (hsep : IsSeparator sep) (key : CStr) (names : List CStr)
    (hplain : '\\' ∉ key) (hne : key ≠ []) (hhead : key.head? ≠ some '-') :
    echo.print (key ++ names.flatMap (· ++ [sep])) = namesLine echo key sep names := by
  rw [echo.print_eq _ (by rwa [List.head?_append_of_ne_nil key hne]),
    echo.expand_plain _ _ hplain, expand_flatMap echo hsep, namesLine]

theorem oneLine_of_plain (name : CStr) (h : Plain name) : OneLine echo name := by
  rw [OneLine, expand_of_plain echo name fun hmem => (h _ hmem).1 rfl]
  exact ⟨rfl, fun hmem => (h _ hmem).2.1 rfl, fun hmem => (h _ hmem).2.2 rfl⟩

/-- Names of one line each are printed on one line. -/
theorem printed_oneLine (hsep : IsSeparator sep) (names : List CStr)
    (h : ∀ name ∈ names, OneLine echo name) :
    (printed echo sep names).2 = true ∧ '\n' ∉ (printed echo sep names).1 ∧
      '\x00' ∉ (printed echo sep names).1 := by
  have hbreaks : sep ≠ '\n' ∧ sep ≠ '\x00' := by
    rcases hsep with rfl | rfl <;> decide
  induction names with
  | nil => exact ⟨rfl, List.not_mem_nil, List.not_mem_nil⟩
  | cons name names ih =>
    obtain ⟨hgoes, hnl, hnul⟩ := h name List.mem_cons_self
    obtain ⟨hgoes', hnl', hnul'⟩ := ih fun other hother => h other (List.mem_cons_of_mem _ hother)
    rw [printed, if_pos hgoes]
    refine ⟨hgoes', ?_, ?_⟩
    · rw [List.mem_append, List.mem_cons, not_or, not_or]
      exact ⟨hnl, hbreaks.1.symm, hnl'⟩
    · rw [List.mem_append, List.mem_cons, not_or, not_or]
      exact ⟨hnul, hbreaks.2.symm, hnul'⟩

end Laws

/-- Where the reader of a text is: outside of an escape, behind a backslash, or in an octal
number with the digits it may still have and its value. -/
inductive Mode
  | text
  | slash
  | octal (digits value : ℕ)

def escape : Char → Option Char
  | '\\' => some '\\'
  | 'a' => some '\x07'
  | 'b' => some '\x08'
  | 'f' => some '\x0c'
  | 'n' => some '\n'
  | 'r' => some '\r'
  | 't' => some '\t'
  | 'v' => some '\x0b'
  | _ => none

def octalChar (value : ℕ) : Char := Char.ofNat (value % 256)

def put (text : CStr) (rest : CStr × Bool) : CStr × Bool := (text ++ rest.1, rest.2)

/-- `echo` ends at `\c`, and prints an escape that it does not know. -/
def expandFrom : Mode → CStr → CStr × Bool
  | .text, [] => ([], true)
  | .slash, [] => (['\\'], true)
  | .octal _ value, [] => ([octalChar value], true)
  | .text, c :: s => if c = '\\' then expandFrom .slash s else put [c] (expandFrom .text s)
  | .slash, c :: s =>
    if c = 'c' then ([], false)
    else if c = '0' then expandFrom (.octal 3 0) s
    else match escape c with
      | some printed => put [printed] (expandFrom .text s)
      | none => put ['\\', c] (expandFrom .text s)
  | .octal digits value, c :: s =>
    if 0 < digits ∧ '0' ≤ c ∧ c ≤ '7' then
      expandFrom (.octal (digits - 1) (8 * value + (c.toNat - '0'.toNat))) s
    else if c = '\\' then put [octalChar value] (expandFrom .slash s)
    else put [octalChar value, c] (expandFrom .text s)

theorem expandFrom_plain (a b : CStr) (h : '\\' ∉ a) :
    expandFrom .text (a ++ b) = put a (expandFrom .text b) := by
  induction a with
  | nil => rfl
  | cons c a ih =>
    obtain ⟨hc, ha⟩ := not_or.mp (mt List.mem_cons.mpr h)
    rw [List.cons_append, expandFrom, if_neg (Ne.symm hc), ih ha]
    rfl

/-- A text printed behind another one, unless `echo` has ended. -/
def andThen (r s : CStr × Bool) : CStr × Bool := if r.2 then put r.1 s else r

theorem put_andThen (text : CStr) (r s : CStr × Bool) :
    put text (andThen r s) = andThen (put text r) s := by
  cases hr : r.2 with
  | true => simp [andThen, put, hr]
  | false => simp [andThen, put, hr]

/-- A separator is printed as it stands. -/
theorem expandFrom_separator {sep : Char} (hsep : IsSeparator sep) (m : Mode) (a b : CStr) :
    expandFrom m (a ++ sep :: b) =
      andThen (expandFrom m a) (put [sep] (expandFrom .text b)) := by
  have hother : sep ≠ '\\' ∧ sep ≠ 'c' ∧ sep ≠ '0' ∧ escape sep = none ∧
      ¬('0' ≤ sep ∧ sep ≤ '7') := by
    rcases hsep with rfl | rfl <;> decide
  obtain ⟨hslash, hc, hzero, hescape, hdigit⟩ := hother
  induction a generalizing m with
  | nil =>
    cases m with
    | text => simp [expandFrom, andThen, put, hslash]
    | slash => simp [expandFrom, andThen, put, hc, hzero, hescape]
    | octal digits value =>
      have hnot : ¬(0 < digits ∧ '0' ≤ sep ∧ sep ≤ '7') := fun h => hdigit h.2
      rw [List.nil_append, expandFrom, expandFrom, if_neg hnot, if_neg hslash]
      rfl
  | cons x a ih =>
    rw [List.cons_append]
    cases m with
    | text =>
      rw [expandFrom, expandFrom]
      split_ifs
      · exact ih _
      · rw [ih, put_andThen]
    | slash =>
      rw [expandFrom, expandFrom]
      split_ifs
      · rfl
      · exact ih _
      · cases escape x with
        | some printed => exact (congrArg (put [printed]) (ih .text)).trans (put_andThen _ _ _)
        | none => exact (congrArg (put ['\\', x]) (ih .text)).trans (put_andThen _ _ _)
    | octal digits value =>
      rw [expandFrom, expandFrom]
      split_ifs
      · exact ih _
      · rw [ih, put_andThen]
      · rw [ih, put_andThen]

/-- The `echo` of POSIX, with the option `-n`. -/
def posixEcho : EscapingEcho where
  print s :=
    if s = "-n".toList then []
    else (expandFrom .text s).1 ++ if (expandFrom .text s).2 then ['\n'] else []
  print_plain s h hn := by
    have hplain := expandFrom_plain s [] h
    rw [List.append_nil] at hplain
    rw [if_neg hn, hplain]
    simp [put, expandFrom]
  expand := expandFrom .text
  print_eq s h := by
    rw [if_neg]
    rintro rfl
    exact h rfl
  expand_nil := rfl
  expand_plain := expandFrom_plain
  expand_separator _ _ _ hsep := expandFrom_separator hsep _ _ _

end Vdev.EchoEscapes
