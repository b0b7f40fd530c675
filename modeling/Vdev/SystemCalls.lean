import Vdev.CString
import Vdev.FileTree
import Mathlib.Data.List.Lex
import Mathlib.Data.Char

/-!
The file-system calls of POSIX on a directory tree. The tree has directories,
regular files and device nodes, and no symbolic links. A path is resolved from
the root one component at a time, with `.` and `..`; a path that ends in a slash
is resolved as if a dot were appended. The caller is the superuser, so only the
shape of the tree makes a call fail. No driver stands behind a device node, so
opening one fails.

A string `Denotes` a location when its components are the names on the way to it.
For such strings each call is described by the entries of the tree alone.
-/
namespace Vdev.SystemCalls

open CString FileTree

def Plain (s : CStr) : Prop := s ≠ [] ∧ '/' ∉ s ∧ s ≠ ['.'] ∧ s ≠ ['.', '.']

instance (s : CStr) : Decidable (Plain s) :=
  inferInstanceAs (Decidable (s ≠ [] ∧ '/' ∉ s ∧ s ≠ ['.'] ∧ s ≠ ['.', '.']))

abbrev Name := {s : CStr // Plain s}

abbrev Location := List Name

/-- Regular files and device nodes; both carry their mode. -/
inductive Leaf
  | file (mode : ℕ) (content : CStr)
  | device (mode dev : ℕ)
  deriving DecidableEq

/-- A file tree; directories carry their mode. -/
abbrev FS := Tree Name ℕ Leaf

def steps (l : Location) : List CStr := (l.map Subtype.val).reverse

def names (s : CStr) : List CStr := (s.splitOn '/').filter (· ≠ [])

def slashed (s : CStr) : Bool := s.getLast? == some '/'

/-- Follow the components from `l`. Every location that is left must be a directory. -/
def walk (T : FS) : Location → List CStr → Except Errno Location
  | l, [] => .ok l
  | l, c :: cs =>
    match T.get l with
    | none => .error .enoent
    | some (.leaf _) => .error .enotdir
    | some (.dir _) =>
      if h : Plain c then walk T (⟨c, h⟩ :: l) cs
      else if c = ['.', '.'] then walk T l.tail cs
      else walk T l cs

/-- The location that a path leads to. The empty path leads nowhere. -/
def resolve (T : FS) (s : CStr) : Except Errno Location :=
  if s = [] then .error .enoent
  else walk T [] (names s ++ if slashed s then [['.']] else [])

/-- `stat`, and `lstat`: there are no symbolic links to tell them apart. -/
def stat (T : FS) (s : CStr) : Except Errno (Entry ℕ Leaf) :=
  match resolve T s with
  | .error e => .error e
  | .ok l =>
    match T.get l with
    | none => .error .enoent
    | some e => .ok e

inductive Last
  | root | dot | dotdot
  | name (n : Name)

def lastOf (c : CStr) : Last :=
  if h : Plain c then .name ⟨c, h⟩
  else if c = ['.', '.'] then .dotdot
  else .dot

/-- What a call that makes or removes an entry works on: the directory, which
exists, and the last component of the path. -/
def target (T : FS) (s : CStr) : Except Errno (Location × Last) :=
  if s = [] then .error .enoent
  else
    match (names s).reverse with
    | [] => .ok ([], .root)
    | c :: cs =>
      match walk T [] cs.reverse with
      | .error e => .error e
      | .ok l =>
        match T.get l with
        | none => .error .enoent
        | some (.leaf _) => .error .enotdir
        | some (.dir _) => .ok (l, lastOf c)

def mkdir (T : FS) (s : CStr) (mode : ℕ) : Except Errno FS :=
  match target T s with
  | .error e => .error e
  | .ok (l, .name n) =>
    match T.get (n :: l) with
    | some _ => .error .eexist
    | none => .ok (T.put n l (.dir mode))
  | .ok _ => .error .eexist

def S_IFMT : ℕ := 0o170000
def S_IFDIR : ℕ := 0o040000

/-- The types that `mknod` makes: regular files, also where no type is given, character and
block devices, pipes and sockets. -/
def mknodTypes : List ℕ := [0, 0o100000, 0o020000, 0o060000, 0o010000, 0o140000]

/-- The types that `mknod` refuses to make, before it looks at the path. -/
def mknodRefuses (mode : ℕ) : Option Errno :=
  if mode &&& S_IFMT = S_IFDIR then some .eperm
  else if mode &&& S_IFMT ∈ mknodTypes then none
  else some .einval

def mknod (T : FS) (s : CStr) (mode dev : ℕ) : Except Errno FS :=
  match mknodRefuses mode with
  | some e => .error e
  | none =>
    match target T s with
    | .error e => .error e
    | .ok (l, .name n) =>
      match T.get (n :: l) with
      | some _ => .error .eexist
      | none => if slashed s then .error .enoent else .ok (T.put n l (.leaf (.device mode dev)))
    | .ok _ => .error .eexist

def unlink (T : FS) (s : CStr) : Except Errno FS :=
  match target T s with
  | .error e => .error e
  | .ok (l, .name n) =>
    match T.get (n :: l) with
    | none => .error .enoent
    | some (.dir _) => .error .eisdir
    | some (.leaf _) => if slashed s then .error .enotdir else .ok (T.remove n l)
  | .ok _ => .error .eisdir

def rmdir (T : FS) (s : CStr) : Except Errno FS :=
  match target T s with
  | .error e => .error e
  | .ok (l, .name n) =>
    match T.get (n :: l) with
    | none => .error .enoent
    | some (.leaf _) => .error .enotdir
    | some (.dir _) => if T.Childless (n :: l) then .ok (T.remove n l) else .error .enotempty
  | .ok (_, .root) => .error .ebusy
  | .ok (_, .dot) => .error .einval
  | .ok (_, .dotdot) => .error .enotempty

/-- `open` for writing with `O_TRUNC`, and with `O_CREAT` if `create` is set,
followed by writing the whole content. -/
def writeFile (T : FS) (s : CStr) (content : CStr) (create : Bool) (mode : ℕ) : Except Errno FS :=
  match target T s with
  | .error e => .error e
  | .ok (l, .name n) =>
    match T.get (n :: l) with
    | none =>
      if !create then .error .enoent
      else if slashed s then .error .eisdir
      else .ok (T.put n l (.leaf (.file mode content)))
    | some (.dir _) => .error .eisdir
    | some (.leaf (.file m _)) =>
      if slashed s then .error .enotdir else .ok (T.put n l (.leaf (.file m content)))
    | some (.leaf (.device _ _)) => .error .enxio
  | .ok _ => .error .eisdir

/-- `open` for reading, and reading at most `len` bytes. -/
def readFile (T : FS) (s : CStr) (len : ℕ) : Except Errno CStr :=
  match stat T s with
  | .error e => .error e
  | .ok (.dir _) => .error .eisdir
  | .ok (.leaf (.file _ content)) => .ok (content.take len)
  | .ok (.leaf (.device _ _)) => .error .enxio

/-- `scandir` with `alphasort`: the names in a directory, with `.` and `..`. -/
def scandir (T : FS) (s : CStr) : Except Errno (List CStr) :=
  match resolve T s with
  | .error e => .error e
  | .ok l =>
    match T.get l with
    | none => .error .enoent
    | some (.leaf _) => .error .enotdir
    | some (.dir _) =>
      .ok (sortMultiset (['.'] ::ₘ ['.', '.'] ::ₘ (T.children l).map Subtype.val))

theorem names_append_slash (a b : CStr) : names (a ++ '/' :: b) = names a ++ names b := by
  rw [names, List.splitOn_append_cons_self, List.filter_append]
  rfl

theorem names_nil : names [] = [] := rfl

theorem names_slash (s : CStr) : names ('/' :: s) = names s := names_append_slash [] s

theorem names_of_plain (s : CStr) (h : Plain s) : names s = [s] := by
  obtain ⟨hne, hslash, _⟩ := h
  rw [names, List.splitOn_eq_singleton hslash]
  simp [hne]

theorem slashed_append (a b : CStr) (hb : b ≠ []) : slashed (a ++ b) = slashed b := by
  rw [slashed, slashed, List.getLast?_append_of_ne_nil _ hb]

theorem slashed_of_plain (s : CStr) (h : Plain s) : slashed s = false := by
  obtain ⟨_, hslash, _⟩ := h
  rw [slashed, beq_eq_false_iff_ne]
  intro hlast
  exact hslash (List.mem_of_getLast? hlast)

theorem steps_cons (n : Name) (l : Location) : steps (n :: l) = steps l ++ [n.val] := by
  simp [steps]

theorem steps_eq_map (r : Location) : steps r = r.reverse.map Subtype.val := by
  rw [steps, List.map_reverse]

theorem walk_append (T : FS) (l : Location) (cs ds : List CStr) :
    walk T l (cs ++ ds) = walk T l cs >>= fun m => walk T m ds := by
  induction cs generalizing l with
  | nil => rfl
  | cons c cs ih =>
    rw [List.cons_append, walk, walk]
    split
    · rfl
    · rfl
    · split_ifs
      · exact ih _
      · exact ih _
      · exact ih _

/-- The error that keeps a walk from passing through a location. -/
def blockErr (T : FS) (l : Location) : Errno := if T.Clear l then .enoent else .enotdir

theorem blockErr_cons (T : FS) (n : Name) (l : Location) (h : T.get (n :: l) = none) :
    blockErr T (n :: l) = blockErr T l := by
  simp only [blockErr, T.clear_cons n l h]

theorem blockErr_of_isDir (T : FS) (l : Location) (h : T.IsDir l) : blockErr T l = .enoent := by
  rw [blockErr, if_pos (T.clear_of_isDir l h)]

theorem blockErr_of_leaf (T : FS) (l : Location) (c : Leaf) (h : T.get l = some (.leaf c)) :
    blockErr T l = .enotdir := by
  rw [blockErr, if_neg (T.not_clear_of_leaf c List.suffix_rfl h)]

theorem walk_name (T : FS) (n : Name) (l : Location) :
    walk T l [n.val] =
      match T.get l with
      | none => .error .enoent
      | some (.leaf _) => .error .enotdir
      | some (.dir _) => .ok (n :: l) := by
  rw [walk]
  split
  · rfl
  · rfl
  · rw [dif_pos n.property, walk]

/-- One more name can be resolved when the location before it is a directory. -/
theorem walk_steps (T : FS) (n : Name) (l : Location) :
    walk T [] (steps (n :: l)) = if T.IsDir l then .ok (n :: l) else .error (blockErr T l) := by
  induction l generalizing n with
  | nil =>
    obtain ⟨a, ha⟩ := T.isDir_nil
    rw [if_pos T.isDir_nil]
    change walk T [] [n.val] = _
    rw [walk_name, ha]
  | cons m l ih =>
    rw [steps_cons, walk_append, ih m]
    by_cases hl : T.IsDir l
    · rw [if_pos hl]
      change walk T (m :: l) [n.val] = _
      rw [walk_name]
      cases hm : T.get (m :: l) with
      | none =>
        have hnd : ¬T.IsDir (m :: l) := fun h => h.get_ne_none hm
        simp [hnd, blockErr_cons T m l hm, blockErr_of_isDir T l hl]
      | some e =>
        cases e with
        | dir a => simp [show T.IsDir (m :: l) from ⟨a, hm⟩]
        | leaf c =>
          have hnd : ¬T.IsDir (m :: l) := T.not_isDir_of_leaf _ c hm
          simp [hnd, blockErr_of_leaf T _ c hm]
    · have hm : T.get (m :: l) = none := by
        by_contra h
        exact hl (T.isDir_parent m l h)
      have hnd : ¬T.IsDir (m :: l) := fun h => h.get_ne_none hm
      rw [if_neg hl, if_neg hnd, blockErr_cons T m l hm]
      rfl

theorem walk_steps_of_isDir (T : FS) (l : Location) (h : T.IsDir l) :
    walk T [] (steps l) = .ok l := by
  cases l with
  | nil => rfl
  | cons n l =>
    rw [walk_steps, if_pos (T.isDir_parent n l h.get_ne_none)]

/-- A path without a trailing slash whose components are the names on the way to `l`. -/
structure Denotes (s : CStr) (l : Location) : Prop where
  ne_nil : s ≠ []
  names_eq : names s = steps l
  not_slashed : slashed s = false

/-- A path that may end in slashes; such a path only leads to a directory. -/
structure DenotesDir (s : CStr) (l : Location) : Prop where
  ne_nil : s ≠ []
  names_eq : names s = steps l

/-- A mountpoint as `realpath` returns it: it ends in a slash only if it is the root. -/
structure MountedAt (s : CStr) (l : Location) : Prop extends DenotesDir s l where
  root : slashed s = true → s = ['/']

theorem Denotes.toDir {s : CStr} {l : Location} (h : Denotes s l) : DenotesDir s l :=
  ⟨h.ne_nil, h.names_eq⟩

theorem DenotesDir.resolve {s : CStr} {l : Location} (hs : DenotesDir s l) (T : FS)
    (h : T.IsDir l) : resolve T s = .ok l := by
  rw [SystemCalls.resolve, if_neg hs.ne_nil, hs.names_eq, walk_append,
    walk_steps_of_isDir T l h]
  obtain ⟨a, ha⟩ := h
  change walk T l _ = _
  split_ifs
  · rw [walk, ha]
    simp [Plain, walk]
  · rfl

theorem DenotesDir.stat {s : CStr} {l : Location} (hs : DenotesDir s l) (T : FS)
    (h : T.IsDir l) : ∃ a, stat T s = .ok (.dir a) := by
  obtain ⟨a, ha⟩ := h
  refine ⟨a, ?_⟩
  rw [SystemCalls.stat, hs.resolve T ⟨a, ha⟩]
  simp only [ha]

theorem Denotes.resolve {s : CStr} {n : Name} {l : Location} (hs : Denotes s (n :: l)) (T : FS) :
    resolve T s = if T.IsDir l then .ok (n :: l) else .error (blockErr T l) := by
  rw [SystemCalls.resolve, if_neg hs.ne_nil, hs.not_slashed, hs.names_eq]
  simp only [Bool.false_eq_true, if_false, List.append_nil]
  exact walk_steps T n l

theorem Denotes.stat {s : CStr} {n : Name} {l : Location} (hs : Denotes s (n :: l)) (T : FS) :
    stat T s =
      match T.get (n :: l) with
      | some e => .ok e
      | none => .error (blockErr T (n :: l)) := by
  rw [SystemCalls.stat, hs.resolve]
  by_cases hl : T.IsDir l
  · simp only [if_pos hl]
    cases hn : T.get (n :: l) with
    | none => simp only [blockErr_cons T n l hn, blockErr_of_isDir T l hl]
    | some e => rfl
  · have hn : T.get (n :: l) = none := by
      by_contra h
      exact hl (T.isDir_parent n l h)
    simp only [if_neg hl, hn, blockErr_cons T n l hn]

theorem DenotesDir.target {s : CStr} {n : Name} {l : Location} (hs : DenotesDir s (n :: l))
    (T : FS) :
    target T s = if T.IsDir l then .ok (l, .name n) else .error (blockErr T l) := by
  have hlast : lastOf n.val = .name n := by
    rw [lastOf, dif_pos n.property]
  rw [SystemCalls.target, if_neg hs.ne_nil, hs.names_eq, steps_cons, List.reverse_append]
  simp only [List.reverse_cons, List.reverse_nil, List.nil_append, List.cons_append,
    List.reverse_reverse]
  by_cases hl : T.IsDir l
  · rw [walk_steps_of_isDir T l hl, if_pos hl]
    obtain ⟨a, ha⟩ := hl
    simp only [ha, hlast]
  · cases l with
    | nil => exact absurd T.isDir_nil hl
    | cons m l =>
      rw [walk_steps, if_neg hl]
      by_cases hl' : T.IsDir l
      · simp only [if_pos hl']
        cases hm : T.get (m :: l) with
        | none => simp [blockErr_cons T m l hm, blockErr_of_isDir T l hl']
        | some e =>
          cases e with
          | dir a => exact absurd ⟨a, hm⟩ hl
          | leaf c => simp [blockErr_of_leaf T _ c hm]
      · have hm : T.get (m :: l) = none := by
          by_contra h
          exact hl' (T.isDir_parent m l h)
        simp [blockErr_cons T m l hm, hl']

section Calls

variable {s : CStr} {n : Name} {l : Location} (T : FS)

theorem DenotesDir.mkdir_new (hs : DenotesDir s (n :: l)) (mode : ℕ) (hl : T.IsDir l)
    (hn : T.get (n :: l) = none) : mkdir T s mode = .ok (T.put n l (.dir mode)) := by
  simp only [mkdir, hs.target T, if_pos hl, hn]

theorem Denotes.unlink_leaf (hs : Denotes s (n :: l)) (c : Leaf)
    (h : T.get (n :: l) = some (.leaf c)) : unlink T s = .ok (T.remove n l) := by
  have hl : T.IsDir l := T.isDir_parent n l (by rw [h]; exact Option.some_ne_none _)
  simp only [unlink, hs.toDir.target T, if_pos hl, h, hs.not_slashed]
  rfl

theorem DenotesDir.unlink_error (hs : DenotesDir s (n :: l))
    (h : ∀ c, T.get (n :: l) ≠ some (.leaf c)) : ∃ e, unlink T s = .error e := by
  rw [unlink, hs.target T]
  by_cases hl : T.IsDir l
  · simp only [if_pos hl]
    cases hn : T.get (n :: l) with
    | none => exact ⟨_, rfl⟩
    | some e =>
      cases e with
      | dir a => exact ⟨_, rfl⟩
      | leaf c => exact absurd hn (h c)
  · rw [if_neg hl]
    exact ⟨_, rfl⟩

theorem DenotesDir.rmdir_empty (hs : DenotesDir s (n :: l)) (h : T.IsDir (n :: l))
    (hc : T.Childless (n :: l)) : rmdir T s = .ok (T.remove n l) := by
  have hl : T.IsDir l := T.isDir_parent n l h.get_ne_none
  obtain ⟨a, ha⟩ := h
  simp only [rmdir, hs.target T, if_pos hl, ha, if_pos hc]

theorem DenotesDir.rmdir_error (hs : DenotesDir s (n :: l))
    (h : ¬(T.IsDir (n :: l) ∧ T.Childless (n :: l))) : ∃ e, rmdir T s = .error e := by
  rw [rmdir, hs.target T]
  by_cases hl : T.IsDir l
  · simp only [if_pos hl]
    cases hn : T.get (n :: l) with
    | none => exact ⟨_, rfl⟩
    | some e =>
      cases e with
      | dir a =>
        have hc : ¬T.Childless (n :: l) := fun hc => h ⟨⟨a, hn⟩, hc⟩
        simp only [if_neg hc]
        exact ⟨_, rfl⟩
      | leaf c => exact ⟨_, rfl⟩
  · rw [if_neg hl]
    exact ⟨_, rfl⟩

theorem DenotesDir.scandir_dir {s : CStr} {l : Location} (hs : DenotesDir s l) (h : T.IsDir l) :
    scandir T s =
      .ok (sortMultiset (['.'] ::ₘ ['.', '.'] ::ₘ (T.children l).map Subtype.val)) := by
  rw [scandir, hs.resolve T h]
  obtain ⟨a, ha⟩ := h
  simp only [ha]

theorem Denotes.scandir_error (hs : Denotes s (n :: l)) (h : ¬T.IsDir (n :: l)) :
    ∃ e, scandir T s = .error e := by
  rw [scandir, hs.resolve T]
  by_cases hl : T.IsDir l
  · simp only [if_pos hl]
    cases hn : T.get (n :: l) with
    | none => exact ⟨_, rfl⟩
    | some e =>
      cases e with
      | dir a => exact absurd ⟨a, hn⟩ h
      | leaf c => exact ⟨_, rfl⟩
  · rw [if_neg hl]
    exact ⟨_, rfl⟩

end Calls

end Vdev.SystemCalls
