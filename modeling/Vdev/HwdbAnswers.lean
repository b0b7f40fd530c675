import Vdev.HwdbLookup
import Mathlib.Data.Char
import Mathlib.Data.List.Lex
import Mathlib.Data.List.Sort

/-!
Which modaliases a compiled record answers for. The first match line of a record makes the way
down, and everything behind it is appended to the properties at its end.
-/
namespace Vdev.Hwdb

open CString Shell

theorem Literal.mem_line (l : Literal) (c : Char) (h : c ∈ l.line) : LitChar c ∨ c = '*' := by
  rcases List.mem_append.mp h with h | h
  · exact Or.inl (l.ok c h)
  · exact Or.inr (List.mem_singleton.mp h)

theorem Literal.not_mem_line (l : Literal) (c : Char) (hc : ¬LitChar c) (hstar : c ≠ '*') :
    c ∉ l.line := fun h => (l.mem_line c h).elim hc hstar

theorem Literal.line_ne_option (l : Literal) : l.line ≠ "-n".toList := by
  intro h
  have hmem : '*' ∈ l.line := by simp [Literal.line]
  rw [h] at hmem
  exact absurd hmem (by decide)

theorem Literal.print_line (env : Env) (l : Literal) : env.echo.print l.line = l.line ++ ['\n'] :=
  env.echo.print_plain _ (l.not_mem_line _ (by decide) (by decide)) l.line_ne_option

/-- The names of the path for a match line. -/
theorem splitOn_triePath (env : Env) (l : Literal) :
    (triePath env l.line).splitOn '/' = (insertColons l.line).splitOn ':' := by
  have hmem (c : Char) (hc : ¬LitChar c) (hstar : c ≠ '*') (hcolon : c ≠ ':') :
      c ∉ insertColons l.line :=
    fun h => (mem_insertColons _ c h).elim hcolon (l.not_mem_line c hc hstar)
  have hnl : '\n' ∉ (insertColons l.line).map slash := by
    intro h
    obtain ⟨c, hc, heq⟩ := List.mem_map.mp h
    unfold slash at heq
    split_ifs at heq
    · exact absurd heq (by decide)
    · subst heq
      exact hmem '\n' (by decide) (by decide) (by decide) hc
  have htrie : triePath env l.line = (insertColons l.line).map slash := by
    rw [triePath, l.print_line, sedLines_line _ _ (l.not_mem_line _ (by decide) (by decide))]
    exact substituted_line _ hnl
  rw [htrie, splitOn_map_slash _ (hmem '/' (by decide) (by decide) (by decide))]

def Literal.way (l : Literal) : List CStr := dirs (pieces l.text).1 ++ [(pieces l.text).2 ++ ['*']]

/-- The directories that `mkdir -p` makes for the first match line. -/
theorem mkdirP_line (env : Env) (l : Literal) (hdots : "..".toList ∉ (pieces l.text).1) :
    ∃ t, mkdirP ((triePath env l.line).splitOn '/') [] emptyTree = (t, some l.way) ∧
      t.files = (fun _ => none) ∧
      ∀ s c rest, l.way = s ++ c :: rest → t.children s = [c] := by
  obtain ⟨tail, hsplit, htail⟩ := splitOn_line l.text
  have hnot (q : CStr) : q ++ ['*'] ≠ [] ∧ q ++ ['*'] ≠ ".".toList ∧ q ++ ['*'] ≠ "..".toList := by
    have hstar : '*' ∈ q ++ ['*'] := by simp
    refine ⟨by simp, fun h => ?_, fun h => ?_⟩
    all_goals
      rw [h] at hstar
      exact absurd hstar (by decide)
  have hdirs : dirs ((pieces l.text).1 ++ ((pieces l.text).2 ++ ['*']) :: tail) = l.way := by
    have hskip : tail.filter (fun p => ¬Skipped p) = [] := by
      rw [List.filter_eq_nil_iff]
      intro p hp
      have hempty : Skipped p := Or.inl (htail p hp)
      simpa using hempty
    have hstar : ¬Skipped ((pieces l.text).2 ++ ['*']) := by
      rintro (h | h)
      · exact (hnot _).1 h
      · exact (hnot _).2.1 h
    rw [dirs, List.filter_append, List.filter_cons_of_pos (by simpa using hstar), hskip]
    rfl
  have hdots' : "..".toList ∉ (pieces l.text).1 ++ ((pieces l.text).2 ++ ['*']) :: tail := by
    rw [List.mem_append, List.mem_cons, not_or, not_or]
    refine ⟨hdots, (hnot _).2.2.symm, fun h => ?_⟩
    exact absurd (htail _ h) (by decide)
  obtain ⟨t, hmk, hfiles, hway, -⟩ := mkdirP_chain _ [] emptyTree hdots' fun s => rfl
  rw [hdirs, List.nil_append] at hmk
  rw [splitOn_triePath, Literal.line, hsplit]
  refine ⟨t, hmk, hfiles, fun s c rest h => ?_⟩
  have hchild := hway s c rest (by rw [hdirs, h])
  rwa [List.nil_append] at hchild

/-- A line that `extract_hwdb` takes for a property when it reads properties. -/
structure TakenAsProperty (env : Env) (raw : CStr) : Prop where
  ne_nil : trim raw ≠ []
  not_comment : isComment env (trim raw) = false
  plain : '\\' ∉ trim raw

def written (raw : CStr) : CStr := "VDEV_HWDB_".toList ++ trim raw

theorem appendProperties_append (t : Tree) (a b : CStr) (dir : Option (List CStr)) :
    (t.appendProperties a dir).appendProperties b dir = t.appendProperties (a ++ b) dir := by
  cases dir with
  | none => rfl
  | some d => simp [Tree.appendProperties]

theorem compileLine_property (env : Env) (st : Compiler) (raw : CStr)
    (h : TakenAsProperty env raw) (hreading : st.reading = true) :
    compileLine env st raw =
      { st with tree := st.tree.appendProperties (written raw ++ ['\n']) st.dir } := by
  have hprint : env.echo.print ("VDEV_HWDB_".toList ++ trim raw) = written raw ++ ['\n'] := by
    refine env.echo.print_plain _ ?_ ?_
    · rw [List.mem_append, not_or]
      exact ⟨by decide, h.plain⟩
    · intro heq
      have hhead := congrArg List.head? heq
      simp at hhead
  rw [compileLine, if_neg h.ne_nil, h.not_comment, hreading, ← hprint]
  rfl

/-- The lines behind the first match line are all appended to its properties. -/
theorem compile_properties (env : Env) (raw : CStr) (raws : List CStr) (st : Compiler)
    (h : ∀ r ∈ raw :: raws, TakenAsProperty env r) (hreading : st.reading = true) :
    ((raw :: raws).foldl (compileLine env) st).tree =
      st.tree.appendProperties (lineText ((raw :: raws).map written)) st.dir := by
  induction raws generalizing raw st with
  | nil =>
    rw [List.foldl_cons, List.foldl_nil,
      compileLine_property env st raw (h raw List.mem_cons_self) hreading]
    simp [lineText]
  | cons next raws ih =>
    rw [List.foldl_cons, compileLine_property env st raw (h raw List.mem_cons_self) hreading]
    have hrest := ih next
      ⟨st.reading, st.dir, st.tree.appendProperties (written raw ++ ['\n']) st.dir⟩
      (fun r hr => h r (List.mem_cons_of_mem _ hr)) hreading
    rw [appendProperties_append] at hrest
    exact hrest

theorem Literal.trim_line (l : Literal) : trim l.line = l.line := by
  refine trim_eq_self _ fun c hc => ?_
  rcases l.mem_line c hc with h | rfl
  · exact not_isBlank_of_litChar c h
  · decide

/-- A match line is no comment, as far as the shell does not expand `*` to one. -/
theorem Literal.not_comment (env : Env) (hstar : isComment env ['*'] = false) (l : Literal) :
    isComment env l.line = false := by
  cases htext : l.text with
  | nil => rwa [Literal.line, htext]
  | cons c rest =>
    have hc : LitChar c := l.ok c (htext ▸ List.mem_cons_self)
    have hhead : (env.first l.line).head? = some c := by
      refine env.first_head _ c (by rw [Literal.line, htext]; rfl) fun hmem => hc ?_
      have hsub : " \t\n*?[".toList ⊆ " \t\n\x0b\x0c\r/#=*?[\\\x00".toList := by decide
      exact hsub hmem
    rw [isComment, hhead, beq_eq_false_iff_ne]
    rintro ⟨⟩
    exact absurd hc (by decide)

theorem Literal.takenAsProperty (env : Env) (hstar : isComment env ['*'] = false) (l : Literal) :
    TakenAsProperty env l.line := by
  constructor
  · rw [l.trim_line]
    simp [Literal.line]
  · rw [l.trim_line]
    exact l.not_comment env hstar
  · rw [l.trim_line]
    exact l.not_mem_line _ (by decide) (by decide)

theorem Property.trim_line (p : Property) : trim (p.indent ++ p.text) = p.text := by
  rw [trim_append _ _ p.indent_ok.2]
  exact p.value_ok.2.2

theorem Property.written_line (p : Property) :
    written (p.indent ++ p.text) = "VDEV_HWDB_".toList ++ p.text :=
  congrArg ("VDEV_HWDB_".toList ++ ·) p.trim_line

theorem Property.takenAsProperty (env : Env) (p : Property) (hplain : '\\' ∉ p.text) :
    TakenAsProperty env (p.indent ++ p.text) := by
  obtain ⟨c, key, hkey⟩ := List.exists_cons_of_ne_nil p.key_ok.1
  have hc := p.key_ok.2 c (hkey ▸ List.mem_cons_self)
  have htext : p.text = c :: (key ++ '=' :: p.value) := by rw [Property.text, hkey]; rfl
  constructor
  · rw [p.trim_line, htext]
    exact List.cons_ne_nil _ _
  · rw [p.trim_line]
    have hhead : (env.first p.text).head? = some c := by
      refine env.first_head _ c (by rw [htext]; rfl) fun hmem => hc ?_
      have hsub : " \t\n*?[".toList ⊆ " \t\n#=*?[\x00".toList := by decide
      exact hsub hmem
    rw [isComment, hhead, beq_eq_false_iff_ne]
    rintro ⟨⟩
    exact absurd hc (by decide)
  · rwa [p.trim_line]

/-- The properties that are written for a record: the match lines but the first count as some. -/
def Record.file (r : Record) : CStr :=
  lineText ((r.literals.tail.map Literal.line ++ r.properties.map fun p => p.indent ++ p.text).map
    written)

theorem Record.readLines_text (r : Record) :
    readLines r.text =
      r.literals.map Literal.line ++ r.properties.map fun p => p.indent ++ p.text := by
  refine readLines_lineText _ fun line hline hnl => ?_
  rcases List.mem_append.mp hline with h | h
  · obtain ⟨l, -, rfl⟩ := List.mem_map.mp h
    exact l.not_mem_line _ (by decide) (by decide) hnl
  · obtain ⟨p, -, rfl⟩ := List.mem_map.mp h
    rcases List.mem_append.mp hnl with hnl | hnl
    · exact absurd (p.indent_ok.2 _ hnl) (by decide)
    rcases List.mem_append.mp hnl with hnl | hnl
    · exact absurd (p.key_ok.2 _ hnl) (by decide)
    rcases List.mem_cons.mp hnl with hnl | hnl
    · exact absurd hnl (by decide)
    · exact p.value_ok.1 hnl

/-- The first match line makes the directories. -/
theorem compileLine_first (env : Env) (hstar : isComment env ['*'] = false) (l : Literal)
    (hdots : "..".toList ∉ (pieces l.text).1) :
    ∃ t, compileLine env ⟨false, some [], emptyTree⟩ l.line = ⟨true, some l.way, t⟩ ∧
      (∀ dir, t.files dir = none) ∧ ∀ s c rest, l.way = s ++ c :: rest → t.children s = [c] := by
  obtain ⟨t, hmk, hfiles, hway⟩ := mkdirP_line env l hdots
  have hne : l.line ≠ [] := by simp [Literal.line]
  have hregex : isModaliasRegex l.line = true := by
    rw [isModaliasRegex, bne_iff_ne]
    exact fun h => l.not_mem_line ' ' (by decide) (by decide) (List.mem_of_head? h)
  refine ⟨t.rmProperties (some l.way), ?_, fun dir => ?_, hway⟩
  · rw [compileLine, l.trim_line, if_neg hne, l.not_comment env hstar, hregex, hmk]
    rfl
  · simp [Tree.rmProperties, hfiles]

/-- The database of a record: one way down for its first match line. -/
theorem chain_record (env : Env) (r : Record) (hstar : isComment env ['*'] = false) (l : Literal)
    (ls : List Literal) (hr : r.literals = l :: ls) (hplain : r.Verbatim)
    (hdots : "..".toList ∉ (pieces l.text).1) :
    Chain (extractHwdb env r.text) l.way r.file := by
  obtain ⟨t, hfirst, hfiles, hway⟩ := compileLine_first env hstar l hdots
  set raws := ls.map Literal.line ++ r.properties.map fun p => p.indent ++ p.text with hraws
  have hne : raws ≠ [] := by simp [hraws, r.properties_ne]
  have htaken : ∀ raw ∈ raws, TakenAsProperty env raw := by
    intro raw hraw
    rcases List.mem_append.mp hraw with h | h
    · obtain ⟨l', -, rfl⟩ := List.mem_map.mp h
      exact l'.takenAsProperty env hstar
    · obtain ⟨p, hp, rfl⟩ := List.mem_map.mp h
      exact p.takenAsProperty env (hplain p hp)
  have htree : extractHwdb env r.text = t.appendProperties r.file (some l.way) := by
    rw [extractHwdb, r.readLines_text, hr, List.map_cons, List.cons_append, ← hraws,
      List.foldl_cons, hfirst, Record.file, hr, List.tail_cons, ← hraws]
    obtain ⟨raw, raws', hcons⟩ := List.exists_cons_of_ne_nil hne
    rw [hcons] at htaken ⊢
    exact compile_properties env raw raws' ⟨true, some l.way, t⟩ htaken rfl
  rw [htree]
  refine ⟨hway, fun dir => ?_⟩
  simp [Tree.appendProperties, hfiles, Function.update_apply]

theorem Literal.pieces_litChar (l : Literal) :
    (∀ p ∈ (pieces l.text).1, ∀ c ∈ p, LitChar c) ∧ ∀ c ∈ (pieces l.text).2, LitChar c := by
  obtain ⟨hclosed, hrest⟩ := pieces_subset l.text
  exact ⟨fun p hp c hc => l.ok c (hclosed p hp hc), fun c hc => l.ok c (hrest hc)⟩

/-- The fields that the helper makes of a modalias. -/
theorem hwdb_fields (env : Env) (t : Tree) (m : Modalias) :
    hwdb env t m.text = lookupLoop env t (splitFields ':' (insertColons m.text)) [] false := by
  have hback : '\\' ∉ m.text := fun h => absurd (m.ok _ h) (by decide)
  have hnl : '\n' ∉ m.text := fun h => absurd (m.ok _ h) (by decide)
  have hnl' : '\n' ∉ insertColons m.text := fun h =>
    (mem_insertColons _ _ h).elim (by decide) hnl
  rw [hwdb, env.echo.print_plain _ hback m.not_option, sedLines_line _ _ hnl,
    substituted_line _ hnl']

/-- For a modalias behind the literal of the first match line, the helper finds the file of the
record exactly when the fields can walk down to it. -/
theorem hwdb_first (env : Env) (r : Record) (hstar : isComment env ['*'] = false) (l : Literal)
    (ls : List Literal) (hr : r.literals = l :: ls) (hplain : r.Verbatim)
    (hdots : "..".toList ∉ (pieces l.text).1) (m : Modalias) (hpre : l.text <+: m.text)
    (hlong : l.text.length < m.text.length) :
    (Walkable (pieces l.text).1 (pieces l.text).2 →
        hwdb env (extractHwdb env r.text) m.text = r.file) ∧
      (¬Walkable (pieces l.text).1 (pieces l.text).2 →
        hwdb env (extractHwdb env r.text) m.text = []) := by
  obtain ⟨behind, hbehind⟩ := hpre
  have hne : behind ≠ [] := by
    rintro rfl
    rw [← hbehind, List.append_nil] at hlong
    exact lt_irrefl _ hlong
  obtain ⟨field, fields, hsplit, hfield⟩ := splitFields_behind l.text behind hne
  obtain ⟨hps, hrest⟩ := l.pieces_litChar
  have hopen : (pieces l.text).2 = [] ∨ ∃ a, (pieces l.text).2 = [a] :=
    (pieces_open l.text).imp_right fun ⟨a, _, ha⟩ => ⟨a, ha⟩
  rw [hwdb_fields, ← hbehind, hsplit]
  exact lookup_pieces env (chain_record env r hstar l ls hr hplain hdots) _ _ hps hrest hopen field
    fields hfield [] rfl false

/-- For every modalias, the helper finds the file of a record or nothing. -/
theorem hwdb_either (env : Env) (r : Record) (hstar : isComment env ['*'] = false) (l : Literal)
    (ls : List Literal) (hr : r.literals = l :: ls) (hplain : r.Verbatim)
    (hdots : "..".toList ∉ (pieces l.text).1) (m : Modalias) :
    hwdb env (extractHwdb env r.text) m.text = r.file ∨
      hwdb env (extractHwdb env r.text) m.text = [] := by
  obtain ⟨hps, hrest⟩ := l.pieces_litChar
  rw [hwdb_fields]
  refine lookup_either env (chain_record env r hstar l ls hr hplain hdots) _ hrest _
    (dirs (pieces l.text).1) [] (fun d hd => ?_) rfl false
  obtain ⟨hmem, hnot⟩ := not_skipped_of_mem_dirs hd
  exact ⟨fun hnil => hnot (Or.inl hnil), hps d hmem⟩

theorem lineText_ne_nil {lines : List CStr} (h : lines ≠ []) : lineText lines ≠ [] := by
  obtain ⟨line, lines, rfl⟩ := List.exists_cons_of_ne_nil h
  simp [lineText]

theorem Record.printed_ne_nil (r : Record) : r.printed ≠ [] :=
  lineText_ne_nil (by simpa using r.properties_ne)

/-- What is written for a record: its properties, behind the other match lines. -/
theorem Record.file_eq (r : Record) :
    r.file = lineText ((r.literals.tail.map Literal.line).map written) ++ r.printed := by
  have hprop : (r.properties.map fun p => p.indent ++ p.text).map written =
      r.properties.map fun p => "VDEV_HWDB_".toList ++ p.text := by
    rw [List.map_map]
    exact List.map_congr_left fun p _ => p.written_line
  unfold Record.file Record.printed
  rw [List.map_append, lineText_append, hprop]

/-- The file has the properties and nothing else exactly if the record has one match line. -/
theorem Record.file_eq_printed_iff (r : Record) : r.file = r.printed ↔ r.literals.tail = [] := by
  rw [r.file_eq, List.append_left_eq_self]
  constructor
  · intro h
    by_contra hne
    have hlines : (r.literals.tail.map Literal.line).map written ≠ [] := by
      rwa [Ne, List.map_eq_nil_iff, List.map_eq_nil_iff]
    exact lineText_ne_nil hlines h
  · intro h
    rw [h]
    rfl

/-- A record is answered for a modalias behind the literal of a match line when that is its only
match line, and the fields can walk down the pieces of the literal. Unless a piece leaves a
directory, there is no other case. -/
theorem answers_iff (env : Env) (hstar : isComment env ['*'] = false) (r : Record)
    (hplain : r.Verbatim) (l : Literal) (hl : l ∈ r.literals) (m : Modalias)
    (hpre : l.text <+: m.text) (hlong : l.text.length < m.text.length) :
    (r.literals = [l] ∧ Walkable (pieces l.text).1 (pieces l.text).2 → Answers env r m) ∧
      ((∀ l' ∈ r.literals, "..".toList ∉ (pieces l'.text).1) → Answers env r m →
        r.literals = [l] ∧ Walkable (pieces l.text).1 (pieces l.text).2) := by
  constructor
  · rintro ⟨hone, hwalk⟩
    have hfile : r.file = r.printed := r.file_eq_printed_iff.mpr (by rw [hone]; rfl)
    rw [Answers, ← hfile]
    exact (hwdb_first env r hstar l [] hone hplain hwalk.dots_not_mem m hpre hlong).1 hwalk
  · intro hdots hanswers
    obtain ⟨first, ls, hr⟩ := List.exists_cons_of_ne_nil r.literals_ne
    have hfirst := hdots first (hr ▸ List.mem_cons_self)
    have hfile : r.file = r.printed := by
      rcases hwdb_either env r hstar first ls hr hplain hfirst m with h | h
      · exact h.symm.trans hanswers
      · exact absurd (hanswers.symm.trans h) r.printed_ne_nil
    have hone : r.literals = [l] := by
      have htail := r.file_eq_printed_iff.mp hfile
      rw [hr, List.tail_cons] at htail
      rw [hr, htail, List.mem_singleton] at hl
      rw [hr, htail, hl]
    refine ⟨hone, ?_⟩
    by_contra hwalk
    have hnil := (hwdb_first env r hstar l [] hone hplain (hdots l hl) m hpre hlong).2 hwalk
    exact r.printed_ne_nil (hanswers.symm.trans hnil)

/-- A shell that finds no file for a pattern, and `ls` in the order of the characters. -/
def Env.simple : Env where
  echo := Echo.simple
  first s := (s.dropWhile isBlank).takeWhile (fun c => !isBlank c)
  fnmatch pattern s :=
    if pattern.getLast? = some '*' then pattern.dropLast.isPrefixOf s else pattern == s
  sort := List.insertionSort (· ≤ ·)
  first_head s c hc hmem := by
    cases s with
    | nil => cases hc
    | cons d s =>
      obtain rfl : d = c := Option.some.inj hc
      have hblank : isBlank d = false := by
        unfold isBlank
        rw [Bool.or_eq_false_iff, beq_eq_false_iff_ne, beq_eq_false_iff_ne]
        exact ⟨fun h => hmem (h ▸ by decide), fun h => hmem (h ▸ by decide)⟩
      simp [hblank]
  fnmatch_star lit s hlit := by simp [List.isPrefixOf_iff_prefix]
  sort_perm := List.perm_insertionSort _

theorem Env.simple_star : isComment Env.simple ['*'] = false := by decide

def vendor : Property where
  indent := " ".toList
  key := "ID_VENDOR".toList
  value := "Linux".toList
  indent_ok := by decide
  key_ok := by decide
  value_ok := by decide

/-- A record for `usb:v1D6B*`. -/
def usbRecord : Record where
  literals := [⟨"usb:v1D6B".toList, by decide⟩]
  properties := [vendor]
  literals_ne := List.cons_ne_nil _ _
  properties_ne := List.cons_ne_nil _ _

/-- A record for `acpi:LNXS*`, where the colon is behind four characters. -/
def acpiRecord : Record where
  literals := [⟨"acpi:LNXS".toList, by decide⟩]
  properties := [vendor]
  literals_ne := List.cons_ne_nil _ _
  properties_ne := List.cons_ne_nil _ _

/-- A record for `usb:v1D6B*` and `usb:v1D6C*`. -/
def twoRecord : Record where
  literals := [⟨"usb:v1D6B".toList, by decide⟩, ⟨"usb:v1D6C".toList, by decide⟩]
  properties := [vendor]
  literals_ne := List.cons_ne_nil _ _
  properties_ne := List.cons_ne_nil _ _

def usbModalias : Modalias where
  text := "usb:v1D6Bp0002".toList
  ok := by decide
  not_option := by decide

def acpiModalias : Modalias where
  text := "acpi:LNXSYSTM".toList
  ok := by decide
  not_option := by decide

theorem usbRecord_answers : Answers Env.simple usbRecord usbModalias :=
  (answers_iff Env.simple Env.simple_star usbRecord (by unfold Record.Verbatim; decide)
    ⟨"usb:v1D6B".toList, by decide⟩ List.mem_cons_self usbModalias (by decide) (by decide)).1
    ⟨rfl, by decide⟩

/-- Nothing is found behind a colon that follows four characters. Of two match lines, the second
one is printed as a property. -/
theorem records_not_answered :
    (∃ l ∈ acpiRecord.literals, l.text <+: acpiModalias.text ∧
        l.text.length < acpiModalias.text.length ∧
        ¬Answers Env.simple acpiRecord acpiModalias) ∧
      ∃ l ∈ twoRecord.literals, l.text <+: usbModalias.text ∧
        l.text.length < usbModalias.text.length ∧ ¬Answers Env.simple twoRecord usbModalias := by
  constructor
  · refine ⟨_, List.mem_cons_self, by decide, by decide, fun h => ?_⟩
    have hnil := (hwdb_first Env.simple acpiRecord Env.simple_star _ [] rfl
      (by unfold Record.Verbatim; decide) (by decide) acpiModalias (by decide) (by decide)).2
      (by decide)
    exact acpiRecord.printed_ne_nil (h.symm.trans hnil)
  · refine ⟨_, List.mem_cons_self, by decide, by decide, fun h => ?_⟩
    rcases hwdb_either Env.simple twoRecord Env.simple_star _ _ rfl
      (by unfold Record.Verbatim; decide) (by decide) usbModalias with hfile | hnil
    · exact absurd (twoRecord.file_eq_printed_iff.mp (hfile.symm.trans h)) (List.cons_ne_nil _ _)
    · exact twoRecord.printed_ne_nil (h.symm.trans hnil)

end Vdev.Hwdb
