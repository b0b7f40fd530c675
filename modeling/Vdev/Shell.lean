import Vdev.CString
import Mathlib.Data.List.DropRight

/-!
The part of the POSIX shell that reads lines, splits them into fields and assigns
to variables. Pathname expansion depends on the files that exist, and is a
parameter. `eval` is described for assignments of a double-quoted text in which
no expansion occurs; everything else that it may be given is a parameter too, and
may run any command.
-/
namespace Vdev.Shell

open CString

/-- A shell: its variables, the input that it has not read yet, the commands that
it has executed, and the files around it. -/
structure Sh (ω : Type) where
  vars : CStr → Option CStr
  input : CStr
  executed : List CStr
  world : ω

variable {ω : Type}

def Sh.set (sh : Sh ω) (name value : CStr) : Sh ω :=
  { sh with vars := Function.update sh.vars name (some value) }

def Sh.withInput (sh : Sh ω) (input : CStr) : Sh ω := { sh with input := input }

@[simp] theorem Sh.set_input (sh : Sh ω) (name value : CStr) :
    (sh.set name value).input = sh.input := rfl

@[simp] theorem Sh.set_executed (sh : Sh ω) (name value : CStr) :
    (sh.set name value).executed = sh.executed := rfl

@[simp] theorem Sh.set_world (sh : Sh ω) (name value : CStr) :
    (sh.set name value).world = sh.world := rfl

@[simp] theorem Sh.set_vars_self (sh : Sh ω) (name value : CStr) :
    (sh.set name value).vars name = some value := by
  simp [Sh.set]

theorem Sh.set_vars_of_ne (sh : Sh ω) (name value other : CStr) (h : other ≠ name) :
    (sh.set name value).vars other = sh.vars other := by
  simp [Sh.set, h]

@[simp] theorem Sh.withInput_vars (sh : Sh ω) (input : CStr) :
    (sh.withInput input).vars = sh.vars := rfl

@[simp] theorem Sh.withInput_input (sh : Sh ω) (input : CStr) :
    (sh.withInput input).input = input := rfl

@[simp] theorem Sh.withInput_executed (sh : Sh ω) (input : CStr) :
    (sh.withInput input).executed = sh.executed := rfl

theorem Sh.withInput_set (sh : Sh ω) (input name value : CStr) :
    (sh.withInput input).set name value = (sh.set name value).withInput input := rfl

theorem Sh.withInput_withInput (sh : Sh ω) (input input' : CStr) :
    (sh.withInput input).withInput input' = sh.withInput input' := rfl

/-- `read -r` with an empty IFS: the next line and the rest of the input. It fails
at the end of the input, also when the last line has no newline. -/
def readLine : CStr → Option (CStr × CStr)
  | [] => none
  | c :: cs =>
    if c = '\n' then some ([], cs)
    else (readLine cs).map (fun r => (c :: r.1, r.2))

theorem readLine_append (line rest : CStr) (h : '\n' ∉ line) :
    readLine (line ++ '\n' :: rest) = some (line, rest) := by
  induction line with
  | nil => simp [readLine]
  | cons c line ih =>
    have hc : c ≠ '\n' := by
      intro heq
      exact h (heq ▸ List.mem_cons_self)
    rw [List.cons_append, readLine, if_neg hc, ih (fun hmem => h (List.mem_cons_of_mem _ hmem))]
    rfl

theorem readLine_length (input line rest : CStr) (h : readLine input = some (line, rest)) :
    rest.length < input.length := by
  induction input generalizing line with
  | nil => cases h
  | cons c cs ih =>
    rw [readLine] at h
    rw [List.length_cons]
    split_ifs at h
    · cases h
      omega
    · obtain ⟨⟨line', rest'⟩, hread, heq⟩ := Option.map_eq_some_iff.mp h
      cases heq
      have hlt := ih line' hread
      omega

/-- What `echo` of the shell prints for one argument. A text without a backslash is printed as it
is, unless it is the option. -/
structure Echo where
  print : CStr → CStr
  print_plain : ∀ s, '\\' ∉ s → s ≠ "-n".toList → print s = s ++ ['\n']

/-- Only the characters of the text are tried, not all that there are. -/
instance (priority := high) decidableForallMem (s : CStr) (p : Char → Prop) [DecidablePred p] :
    Decidable (∀ c ∈ s, p c) := List.decidableBAll p s

/-- A text that `echo` prints as it is, on one line. -/
def Plain (s : CStr) : Prop := ∀ c ∈ s, c ≠ '\\' ∧ c ≠ '\n' ∧ c ≠ '\x00'

instance (s : CStr) : Decidable (Plain s) := inferInstanceAs (Decidable (∀ c ∈ s, _))

theorem Plain.append {a b : CStr} (ha : Plain a) (hb : Plain b) : Plain (a ++ b) := by
  intro c hc
  exact (List.mem_append.mp hc).elim (ha c) (hb c)

theorem Echo.print_of_plain (echo : Echo) {s : CStr} (h : Plain s) (hn : s ≠ "-n".toList) :
    echo.print s = s ++ ['\n'] := echo.print_plain s (fun hmem => (h _ hmem).1 rfl) hn

/-- `echo` of a shell that knows neither options nor escapes. -/
def Echo.simple : Echo := ⟨fun s => s ++ ['\n'], fun _ _ _ => rfl⟩

/-- The lines that `while read -r` goes through: what follows the last newline is lost. -/
def readLines (input : CStr) : List CStr := (input.splitOn '\n').dropLast

def lineText (lines : List CStr) : CStr := lines.flatMap (· ++ ['\n'])

/-- A command substitution loses the newlines at the end. -/
def substituted (output : CStr) : CStr := output.rdropWhile (· == '\n')

def hereDocument (output : CStr) : List CStr := readLines (substituted output ++ ['\n'])

/-- The characters that `read` and the shell take for blanks in a line. -/
def isBlank (c : Char) : Bool := c == ' ' || c == '\t'

/-- `read -r` takes the blanks at both ends off a line. -/
def trim (line : CStr) : CStr := (line.dropWhile isBlank).rdropWhile isBlank

/-- A program that treats each line alike. A last line without a newline stays without one. -/
def sedLines (f : CStr → CStr) (input : CStr) : CStr :=
  lineText ((readLines input).map f) ++
    match (input.splitOn '\n').getLast? with
    | none | some [] => []
    | some last => f last

theorem lineText_append (lines lines' : List CStr) :
    lineText (lines ++ lines') = lineText lines ++ lineText lines' := List.flatMap_append

theorem readLines_lineText (lines : List CStr) (h : ∀ line ∈ lines, '\n' ∉ line) :
    readLines (lineText lines) = lines := by
  unfold readLines
  induction lines with
  | nil => rfl
  | cons line lines ih =>
    have ih := ih fun other hother => h other (List.mem_cons_of_mem _ hother)
    rw [lineText, List.flatMap_cons, List.append_assoc, List.singleton_append,
      List.splitOn_append_cons_self_of_not_mem (h line List.mem_cons_self),
      List.dropLast_cons_of_ne_nil (List.splitOn_ne_nil _ _), ← lineText, ih]

theorem readLines_line (line : CStr) (h : '\n' ∉ line) : readLines (line ++ ['\n']) = [line] := by
  have hread := readLines_lineText [line] (by simpa using h)
  rwa [lineText, List.flatMap_singleton] at hread

theorem substituted_line (line : CStr) (h : '\n' ∉ line) : substituted (line ++ ['\n']) = line := by
  rw [substituted, List.rdropWhile_concat_pos _ _ _ (by decide), List.rdropWhile_eq_self_iff]
  intro hne hlast
  have hmem := List.getLast_mem hne
  rw [beq_iff_eq.mp hlast] at hmem
  exact h hmem

theorem hereDocument_line (line : CStr) (h : '\n' ∉ line) :
    hereDocument (line ++ ['\n']) = [line] := by
  rw [hereDocument, substituted_line line h, readLines_line line h]

theorem sedLines_line (f : CStr → CStr) (line : CStr) (h : '\n' ∉ line) :
    sedLines f (line ++ ['\n']) = f line ++ ['\n'] := by
  have hsplit : (line ++ ['\n']).splitOn '\n' = [line, []] := by
    rw [List.splitOn_append_cons_self_of_not_mem h]
    rfl
  rw [sedLines, readLines_line line h, hsplit]
  simp [lineText]

theorem trim_append (indent s : CStr) (h : ∀ c ∈ indent, isBlank c = true) :
    trim (indent ++ s) = trim s := by
  rw [trim, List.dropWhile_append_of_pos h, trim]

theorem trim_eq_self (s : CStr) (h : ∀ c ∈ s, isBlank c = false) : trim s = s := by
  have hfront : s.dropWhile isBlank = s := by
    rw [List.dropWhile_eq_self_iff]
    exact fun hlen => by simp [h _ (List.getElem_mem hlen)]
  rw [trim, hfront, List.rdropWhile_eq_self_iff]
  exact fun hne => by simp [h _ (List.getLast_mem hne)]

/-- What is appended without a separator belongs to the last piece. -/
theorem exists_splitOn_append (sep : Char) (s : CStr) :
    ∃ (pieces : List CStr) (last : CStr), ∀ w, sep ∉ w →
      (s ++ w).splitOn sep = pieces ++ [last ++ w] := by
  induction s with
  | nil => exact ⟨[], [], fun w hw => List.splitOn_eq_singleton hw⟩
  | cons c s ih =>
    obtain ⟨pieces, last, h⟩ := ih
    by_cases hc : c = sep
    · refine ⟨[] :: pieces, last, fun w hw => ?_⟩
      rw [List.cons_append, List.splitOn_cons_eq_if_modifyHead, if_pos (by simpa using hc), h w hw,
        List.cons_append]
    · have hcons (w : CStr) (hw : sep ∉ w) : (c :: s ++ w).splitOn sep =
          (pieces ++ [last ++ w]).modifyHead (c :: ·) := by
        rw [List.cons_append, List.splitOn_cons_eq_if_modifyHead, if_neg (by simpa using hc),
          h w hw]
      cases pieces with
      | nil => exact ⟨[], c :: last, fun w hw => hcons w hw⟩
      | cons piece pieces => exact ⟨(c :: piece) :: pieces, last, fun w hw => hcons w hw⟩

/-- Field splitting at a separator that is no white space. The separator ends a
field, so nothing follows one at the end of the text. -/
def splitFields (sep : Char) (s : CStr) : List CStr :=
  if (s.splitOn sep).getLast? = some [] then (s.splitOn sep).dropLast else s.splitOn sep

/-- Joining at a separator puts it before every text but the first. -/
theorem intercalate_cons_flatMap (sep : Char) (v : CStr) (rest : List CStr) :
    [sep].intercalate (v :: rest) = v ++ rest.flatMap (sep :: ·) := by
  induction rest generalizing v with
  | nil => simp
  | cons w rest ih =>
    rw [List.intercalate_cons_cons, ih, List.flatMap_cons, List.append_assoc]
    rfl

theorem splitOn_getLast_ne_nil (sep : Char) (s : CStr) (hne : s ≠ [])
    (hlast : s.getLast? ≠ some sep) : (s.splitOn sep).getLast? ≠ some [] := by
  intro hempty
  obtain ⟨init, hinit⟩ := List.getLast?_eq_some_iff.mp hempty
  have hjoin : [sep].intercalate (init ++ [[]]) = s := by
    rw [← hinit]
    exact List.intercalate_splitOn sep
  cases init with
  | nil => exact hne (by rw [← hjoin]; rfl)
  | cons v rest =>
    rw [List.cons_append, intercalate_cons_flatMap, List.flatMap_append] at hjoin
    apply hlast
    rw [← hjoin]
    simp

/-- The fields of `name=`. -/
theorem splitFields_empty (sep : Char) (name : CStr) (hname : sep ∉ name) :
    splitFields sep (name ++ [sep]) = [name] := by
  have hsplit : (name ++ [sep]).splitOn sep = [name, []] := by
    rw [List.splitOn_append_cons_self_of_not_mem hname]
    rfl
  rw [splitFields, hsplit]
  rfl

/-- The fields of `name=value`. -/
theorem splitFields_value (sep : Char) (name value : CStr) (hname : sep ∉ name)
    (hne : value ≠ []) (hlast : value.getLast? ≠ some sep) :
    splitFields sep (name ++ sep :: value) = name :: value.splitOn sep := by
  have hsplit : (name ++ sep :: value).splitOn sep = name :: value.splitOn sep :=
    List.splitOn_append_cons_self_of_not_mem hname value
  have hends : (name :: value.splitOn sep).getLast? ≠ some [] := by
    rw [List.getLast?_cons_of_ne_nil (List.splitOn_ne_nil sep value)]
    exact splitOn_getLast_ne_nil sep value hne hlast
  rw [splitFields, hsplit, if_neg hends]

def splitBlanks (s : CStr) : List CStr := (s.splitOn ' ').filter (· ≠ [])

theorem splitBlanks_flatMap (names : List CStr)
    (hnames : ∀ name ∈ names, name ≠ [] ∧ ' ' ∉ name) :
    splitBlanks (names.flatMap (· ++ [' '])) = names := by
  induction names with
  | nil => rfl
  | cons name names ih =>
    obtain ⟨hne, hblank⟩ := hnames name List.mem_cons_self
    have ih := ih (fun other hother => hnames other (List.mem_cons_of_mem _ hother))
    unfold splitBlanks at ih ⊢
    rw [List.flatMap_cons, List.append_assoc, List.singleton_append,
      List.splitOn_append_cons_self_of_not_mem hblank, List.filter_cons_of_pos (by simpa using hne),
      ih]

/-- The value of `$n` without braces: only the first digit is the number of the
parameter, the others are text. -/
def dollar (args : List CStr) : ℕ → ℕ → CStr
  | 0, _ => []
  | fuel + 1, n =>
    if n < 10 then args.getD (n - 1) []
    else dollar args fuel (n / 10) ++ [Char.ofNat ('0'.toNat + n % 10)]

theorem dollar_of_lt (args : List CStr) (fuel n : ℕ) (h : n < 10) :
    dollar args (fuel + 1) n = args.getD (n - 1) [] := by
  rw [dollar, if_pos h]

def isNameStart (c : Char) : Bool := c.isAlpha || c == '_'
def isNameChar (c : Char) : Bool := c.isAlphanum || c == '_'

def isIdentifier : CStr → Bool
  | [] => false
  | c :: cs => isNameStart c && cs.all isNameChar

theorem ne_nil_of_isIdentifier (name : CStr) (h : isIdentifier name = true) : name ≠ [] := by
  intro hnil
  rw [hnil] at h
  exact absurd h (by decide)

theorem isNameChar_of_mem (name : CStr) (c : Char) (h : isIdentifier name = true) (hc : c ∈ name) :
    isNameChar c = true := by
  cases name with
  | nil => exact absurd hc List.not_mem_nil
  | cons d name =>
    rw [isIdentifier, Bool.and_eq_true] at h
    rcases List.mem_cons.mp hc with rfl | hc
    · have hstart := h.1
      unfold isNameStart at hstart
      unfold isNameChar Char.isAlphanum
      rw [Bool.or_eq_true] at hstart ⊢
      rw [Bool.or_eq_true]
      tauto
    · exact List.all_eq_true.mp h.2 c hc

theorem isIdentifier_append (start rest : CStr) (hstart : isIdentifier start = true)
    (hrest : isIdentifier rest = true) : isIdentifier (start ++ rest) = true := by
  cases start with
  | nil => exact absurd hstart (by decide)
  | cons c start =>
    rw [isIdentifier, Bool.and_eq_true] at hstart
    rw [List.cons_append, isIdentifier, Bool.and_eq_true, List.all_append, Bool.and_eq_true]
    exact ⟨hstart.1, hstart.2,
      List.all_eq_true.mpr (fun c hc => isNameChar_of_mem rest c hrest hc)⟩

/-- A name has none of the characters that mean something to the shell. -/
theorem not_mem_of_isIdentifier (name : CStr) (c : Char) (h : isIdentifier name = true)
    (hc : isNameChar c = false) : c ∉ name := by
  intro hmem
  rw [isNameChar_of_mem name c h hmem] at hc
  exact absurd hc (by decide)

def quotable : List Char := ['$', '`', '"', '\\']

/-- The value of the text after an opening double quote, when the closing one is
its last character and nothing in between is expanded. -/
def doubleQuoted : CStr → Option CStr
  | [] => none
  | ['"'] => some []
  | '\\' :: c :: rest =>
    if c ∈ quotable then (doubleQuoted rest).map (c :: ·)
    else if c = '\n' then doubleQuoted rest
    else (doubleQuoted (c :: rest)).map ('\\' :: ·)
  | c :: rest => if c ∈ quotable then none else (doubleQuoted rest).map (c :: ·)

/-- A text that double quotes keep as it is: no quote, no expansion, and no
backslash that quotes something. -/
def Verbatim : CStr → Prop
  | [] => True
  | c :: rest =>
    c ≠ '$' ∧ c ≠ '`' ∧ c ≠ '"' ∧
      (c = '\\' → ∃ d ds, rest = d :: ds ∧ d ≠ '\\' ∧ d ≠ '\n') ∧ Verbatim rest

theorem doubleQuoted_verbatim (s : CStr) (h : Verbatim s) :
    doubleQuoted (s ++ ['"']) = some s := by
  induction s with
  | nil => rfl
  | cons c rest ih =>
    obtain ⟨hdollar, htick, hquote, hback, hrest⟩ := h
    have ih := ih hrest
    by_cases hc : c = '\\'
    · obtain ⟨d, ds, rfl, hd, hnl⟩ := hback hc
      subst hc
      have hdq : d ∉ quotable := by
        obtain ⟨h₁, h₂, h₃, _⟩ := hrest
        simp [quotable, h₁, h₂, h₃, hd]
      rw [List.cons_append, List.cons_append, doubleQuoted, if_neg hdq, if_neg hnl,
        ← List.cons_append, ih]
      rfl
    · have hcq : c ∉ quotable := by
        simp [quotable, hdollar, htick, hquote, hc]
      have hstep : doubleQuoted (c :: (rest ++ ['"'])) =
          if c ∈ quotable then none else (doubleQuoted (rest ++ ['"'])).map (c :: ·) := by
        rw [doubleQuoted]
        · intro hnil heq
          exact absurd heq (by simp)
        · intro d ds heq
          exact absurd heq hc
      rw [List.cons_append, hstep, if_neg hcq, ih]
      rfl

theorem Verbatim.quote_not_mem (s : CStr) (h : Verbatim s) : '"' ∉ s := by
  induction s with
  | nil => exact List.not_mem_nil
  | cons c rest ih =>
    intro hmem
    rcases List.mem_cons.mp hmem with heq | hmem
    · exact h.2.2.1 heq.symm
    · exact ih h.2.2.2.2 hmem

/-- `eval` of the text `name="value"`. -/
def evalAssign (other : CStr → Sh ω → Sh ω) (name value : CStr) (sh : Sh ω) : Sh ω :=
  let text := name ++ ['=', '"'] ++ value ++ ['"']
  if isIdentifier name then
    match doubleQuoted (value ++ ['"']) with
    | some v => sh.set name v
    | none => other text sh
  else other text sh

theorem evalAssign_input (other : CStr → Sh ω → Sh ω)
    (hother : ∀ text sh, (other text sh).input.length ≤ sh.input.length) (name value : CStr)
    (sh : Sh ω) : (evalAssign other name value sh).input.length ≤ sh.input.length := by
  rw [evalAssign]
  split
  · split
    · exact le_rfl
    · exact hother _ sh
  · exact hother _ sh

theorem evalAssign_verbatim (other : CStr → Sh ω → Sh ω) (name value : CStr) (sh : Sh ω)
    (hname : isIdentifier name = true) (hvalue : Verbatim value) :
    evalAssign other name value sh = sh.set name value := by
  rw [evalAssign]
  rw [if_pos hname, doubleQuoted_verbatim value hvalue]

/-- `${v%%\"}` and `${v##\"}`: remove a double quote at the end and at the start. -/
def stripSuffixQuote (v : CStr) : CStr := if v.getLast? = some '"' then v.dropLast else v
def stripPrefixQuote (v : CStr) : CStr := if v.head? = some '"' then v.tail else v

theorem strip_quotes (v : CStr) (h : '"' ∉ v) : stripPrefixQuote (stripSuffixQuote v) = v := by
  have hsuffix : stripSuffixQuote v = v := by
    rw [stripSuffixQuote, if_neg]
    exact fun hlast => h (List.mem_of_getLast? hlast)
  have hprefix : stripPrefixQuote v = v := by
    rw [stripPrefixQuote, if_neg]
    exact fun hhead => h (List.mem_of_head? hhead)
  rw [hsuffix, hprefix]

end Vdev.Shell
