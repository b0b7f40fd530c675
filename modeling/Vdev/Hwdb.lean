import Vdev.Shell
import Mathlib.Logic.Function.Basic

/-!
The hardware database (hwdb/gen_database.sh, vdevd/helpers/LINUX/hwdb.sh). `extract_hwdb` turns
each match line into a path of directories, by a colon after every two characters and a slash for
every colon, and writes the properties into the last of them. The helper splits a modalias in
the same way, and walks down the directories with the fields.
-/
namespace Vdev.Hwdb

open CString Shell

/-- What the two programs use of the shell and of `ls`: `echo`, the first word that `set --` makes
of a line (which may be expanded to the name of a file), the patterns of `case`, and the order
of names. -/
structure Env where
  echo : Echo
  first : CStr → CStr
  fnmatch : CStr → CStr → Bool
  sort : List CStr → List CStr
  first_head : ∀ s c, s.head? = some c → c ∉ " \t\n*?[".toList → (first s).head? = some c
  fnmatch_star : ∀ lit s, (∀ c ∈ lit, c ∉ "*?[\\".toList) →
    (fnmatch (lit ++ ['*']) s = true ↔ lit <+: s)
  sort_perm : ∀ names, (sort names).Perm names

/-- `sed 's/([^:]{2})/\1:/g'`: a colon after every two characters that are none. -/
def insertColons : CStr → CStr
  | a :: b :: rest =>
    if a ≠ ':' ∧ b ≠ ':' then a :: b :: ':' :: insertColons rest
    else a :: insertColons (b :: rest)
  | s => s

/-- The directories of a database: the names of the directories in each one, and its file of
properties. A directory is given by the names on the way to it. -/
structure Tree where
  children : List CStr → List CStr
  files : List CStr → Option CStr

def emptyTree : Tree := ⟨fun _ => [], fun _ => none⟩

def Tree.addChild (t : Tree) (dir : List CStr) (name : CStr) : Tree :=
  if name ∈ t.children dir then t
  else { t with children := Function.update t.children dir (t.children dir ++ [name]) }

/-- A name for which a path stays in the same directory. -/
def Skipped (name : CStr) : Prop := name = [] ∨ name = ".".toList

instance (name : CStr) : Decidable (Skipped name) := inferInstanceAs (Decidable (_ ∨ _))

/-- `mkdir -p` of the names of a path, from a directory on; and the directory where the path ends,
if it stays inside of the database. -/
def mkdirP : List CStr → List CStr → Tree → Tree × Option (List CStr)
  | [], dir, t => (t, some dir)
  | name :: names, dir, t =>
    if Skipped name then mkdirP names dir t
    else if name = "..".toList then
      if dir = [] then (t, none) else mkdirP names dir.dropLast t
    else mkdirP names (dir ++ [name]) (t.addChild dir name)

/-- `rm -f` of the file of properties. -/
def Tree.rmProperties (t : Tree) : Option (List CStr) → Tree
  | none => t
  | some dir => { t with files := Function.update t.files dir none }

/-- `>>` to the file of properties. -/
def Tree.appendProperties (t : Tree) (text : CStr) : Option (List CStr) → Tree
  | none => t
  | some dir =>
    { t with files := Function.update t.files dir (some ((t.files dir).getD [] ++ text)) }

/-- `is_comment`. -/
def isComment (env : Env) (line : CStr) : Bool := (env.first line).head? == some '#'

/-- `is_modalias_regex`. -/
def isModaliasRegex (line : CStr) : Bool := line.head? != some ' '

/-- Where `extract_hwdb` stands: `_READING_PROPS`, the directory of `_TRIE_PATH`, and the
database. -/
structure Compiler where
  reading : Bool
  dir : Option (List CStr)
  tree : Tree

/-- `sed 's/:/\//g'`, for one character. -/
def slash (c : Char) : Char := if c = ':' then '/' else c

/-- `_TRIE_PATH` for a match line. -/
def triePath (env : Env) (line : CStr) : CStr :=
  substituted (sedLines (fun l => (insertColons l).map slash) (env.echo.print line))

/-- One round of the loop of `extract_hwdb`, with the line before `read` takes its blanks off. -/
def compileLine (env : Env) (st : Compiler) (raw : CStr) : Compiler :=
  let line := trim raw
  if line = [] then { st with reading := false }
  else if isComment env line then st
  else if !st.reading then
    if isModaliasRegex line then
      let (tree, dir) := mkdirP ((triePath env line).splitOn '/') [] st.tree
      ⟨true, dir, tree.rmProperties dir⟩
    else st
  else
    { st with
      tree := st.tree.appendProperties (env.echo.print ("VDEV_HWDB_".toList ++ line)) st.dir }

/-- `extract_hwdb` into an empty directory. -/
def extractHwdb (env : Env) (text : CStr) : Tree :=
  ((readLines text).foldl (compileLine env) ⟨false, some [], emptyTree⟩).tree

/-- What `ls` prints for a directory. -/
def ls (env : Env) (t : Tree) (dir : List CStr) : CStr :=
  let names := t.children dir ++ if (t.files dir).isSome then ["properties".toList] else []
  lineText (env.sort (names.filter (·.head? != some '.')))

/-- `BEST_REGEX_MATCH`, `ALL_MATCH`, and what has been printed. -/
structure Search where
  best : CStr
  allMatch : Bool
  printed : CStr

/-- One round of the inner loop of hwdb.sh, for a name in the directory. -/
def tryName (env : Env) (t : Tree) (dir : List CStr) (field : CStr) (s : Search) (raw : CStr) :
    Search :=
  let regex := trim raw
  let nostar := if regex.getLast? = some '*' then regex.dropLast else regex
  let all := nostar.length != regex.length
  if !env.fnmatch (if all then regex else regex ++ ['*']) field then { s with allMatch := all }
  else
    { best :=
        if all ∧ s.best.length < regex.length ∨ ¬all ∧ s.best.length ≤ regex.length then regex
        else s.best
      allMatch := all
      printed := s.printed ++ if all then (t.files (dir ++ [regex])).getD [] else [] }

/-- The loop of hwdb.sh over the fields of the modalias: what it prints, from a directory on. -/
def lookupLoop (env : Env) (t : Tree) : List CStr → List CStr → Bool → CStr
  | [], _, _ => []
  | field :: fields, dir, allMatch =>
    if allMatch ∧ (t.files dir).isSome then []
    else
      let s := (hereDocument (ls env t dir)).foldl (tryName env t dir field) ⟨[], allMatch, []⟩
      if s.best = [] then s.printed
      else s.printed ++ lookupLoop env t fields (dir ++ [s.best]) s.allMatch

/-- hwdb.sh, for a modalias: it is split with the field separator `:`. -/
def hwdb (env : Env) (t : Tree) (modalias : CStr) : CStr :=
  let fields := splitFields ':' (substituted (sedLines insertColons (env.echo.print modalias)))
  lookupLoop env t fields [] false

structure Literal where
  text : CStr
  ok : ∀ c ∈ text, c ∉ " \t\n\x0b\x0c\r/#=*?[\\\x00".toList

/-- A modalias: one line, which `echo` and the shell take as it is. -/
structure Modalias where
  text : CStr
  ok : ∀ c ∈ text, c ∉ "\n*?[\\\x00".toList
  not_option : text ≠ "-n".toList

structure Property where
  indent : CStr
  key : CStr
  value : CStr
  indent_ok : indent ≠ [] ∧ ∀ c ∈ indent, isBlank c = true
  key_ok : key ≠ [] ∧ ∀ c ∈ key, c ∉ " \t\n#=*?[\x00".toList
  value_ok : '\n' ∉ value ∧ '\x00' ∉ value ∧ trim (key ++ '=' :: value) = key ++ '=' :: value

def Property.text (p : Property) : CStr := p.key ++ '=' :: p.value

def Literal.line (l : Literal) : CStr := l.text ++ ['*']

structure Record where
  literals : List Literal
  properties : List Property
  literals_ne : literals ≠ []
  properties_ne : properties ≠ []

def Record.text (r : Record) : CStr :=
  lineText (r.literals.map Literal.line ++ r.properties.map fun p => p.indent ++ p.text)

def Record.printed (r : Record) : CStr :=
  lineText (r.properties.map fun p => "VDEV_HWDB_".toList ++ p.text)

/-- No property has a backslash, which `echo` may take for the start of an escape. -/
def Record.Verbatim (r : Record) : Prop := ∀ p ∈ r.properties, '\\' ∉ p.text

def Answers (env : Env) (r : Record) (m : Modalias) : Prop :=
  hwdb env (extractHwdb env r.text) m.text = r.printed

/-- The closed pieces that the split makes of a text, and what is left for the piece that is
open. -/
def pieces : CStr → List CStr × CStr
  | [] => ([], [])
  | [a] => if a = ':' then ([[]], []) else ([], [a])
  | a :: b :: rest =>
    if a = ':' then ([] :: (pieces (b :: rest)).1, (pieces (b :: rest)).2)
    else if b = ':' then ([a] :: (pieces rest).1, (pieces rest).2)
    else ([a, b] :: (pieces rest).1, (pieces rest).2)

/-- The fields of a modalias lead down the directories of the pieces, which are seen by `ls`. A
field without a directory can only meet the `*` at the end. -/
def Walkable : List CStr → CStr → Prop
  | [], rest => rest ≠ ".".toList
  | piece :: ps, rest =>
    if Skipped piece then rest = [] ∧ ∀ p ∈ ps, Skipped p
    else piece.head? ≠ some '.' ∧ Walkable ps rest

instance decidableWalkable : (ps : List CStr) → (rest : CStr) → Decidable (Walkable ps rest)
  | [], rest => inferInstanceAs (Decidable (rest ≠ ".".toList))
  | piece :: ps, rest =>
    have := decidableWalkable ps rest
    inferInstanceAs (Decidable (if Skipped piece then rest = [] ∧ ∀ p ∈ ps, Skipped p
      else piece.head? ≠ some '.' ∧ Walkable ps rest))

end Vdev.Hwdb
