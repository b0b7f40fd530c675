import Vdev.SystemCalls
import Vdev.Vdevfs
import Vdev.Runs

/-!
The tree under the mountpoint of vdevfs (fs/fs.c). The handlers for mknod, mkdir and
create repeat the operation on the directory that vdevfs is mounted over, as an emergency
copy, and fskit applies the operation to its own tree when the handler returns 0.
The copy is made under the umask of the process, which vdevfs leaves as it is.
`vdevfs_mknod` passes the device number for the mode and the mode for the device number,
and `vdevfs_detach` does not call the file system at all.
-/
namespace Vdev.VdevfsMirror

open CString FileTree SystemCalls AccessControl

inductive Kind
  | dir | regular | chr | blk | fifo | sock
  deriving DecidableEq, Repr

/-- What `stat` tells of an entry: its type, permissions and device number. -/
structure Node where
  kind : Option Kind
  perm : ℕ
  rdev : ℕ
  deriving DecidableEq, Repr

def kindOf (mode : ℕ) : Option Kind :=
  if mode &&& S_IFMT = 0 ∨ mode &&& S_IFMT = 0o100000 then some .regular
  else if mode &&& S_IFMT = 0o020000 then some .chr
  else if mode &&& S_IFMT = 0o060000 then some .blk
  else if mode &&& S_IFMT = 0o010000 then some .fifo
  else if mode &&& S_IFMT = 0o140000 then some .sock
  else none

def permOf (mode : ℕ) : ℕ := mode &&& 0o7777

/-- The device number means something for device nodes only. -/
def nodeOf (mode dev : ℕ) : Node where
  kind := kindOf mode
  perm := permOf mode
  rdev := if kindOf mode = some .chr ∨ kindOf mode = some .blk then dev else 0

def view : Entry ℕ Leaf → Node
  | .dir mode => ⟨some .dir, permOf mode, 0⟩
  | .leaf (.file mode _) => ⟨some .regular, permOf mode, 0⟩
  | .leaf (.device mode dev) => nodeOf mode dev

def mknodat (T : FS) (path : CStr) (mode : BitVec 32) (dev : BitVec 64) : Except Errno FS :=
  mknod T path mode.toNat dev.toNat

/-- The mode with which the kernel makes a file or a node. The umask has permission bits only. -/
def masked (umask mode : BitVec 32) : BitVec 32 := mode &&& ~~~(umask &&& 0o777)

/-- The mode with which it makes a directory: of the bits above the permissions, `mkdir` keeps
the sticky bit. -/
def maskedDir (umask mode : BitVec 32) : BitVec 32 := masked umask mode &&& 0o1777

/-- Creating a regular file that must not be there yet. -/
def createNew (T : FS) (path : CStr) (mode : BitVec 32) : Except Errno FS :=
  match target T path with
  | .error e => .error e
  | .ok (l, .name n) =>
    match T.get (n :: l) with
    | some _ => .error .eexist
    | none =>
      if slashed path then .error .eisdir else .ok (T.put n l (.leaf (.file mode.toNat [])))
  | .ok _ => .error .eexist

/-- The operations that fskit routes to the handlers. -/
inductive Op
  | mknod (path : CStr) (mode : BitVec 32) (dev : BitVec 64)
  | mkdir (path : CStr) (mode : BitVec 32)
  | create (path : CStr) (mode : BitVec 32)
  | detach (path : CStr)
  deriving DecidableEq

def Op.path : Op → CStr
  | .mknod path _ _ => path
  | .mkdir path _ => path
  | .create path _ => path
  | .detach path => path

/-- What fskit makes of its own tree. `detach` is `rmdir` for a directory. -/
def fskitApply (T : FS) : Op → Except Errno FS
  | .mknod path mode dev => mknodat T path mode dev
  | .mkdir path mode => mkdir T path mode.toNat
  | .create path mode => createNew T path mode
  | .detach path =>
    match stat T path with
    | .ok (.dir _) => rmdir T path
    | _ => unlink T path

def relativePath (path : CStr) : CStr :=
  if path.dropWhile (· == '/') = [] then ['.'] else path.dropWhile (· == '/')

def EACCES : Int := 13

/-- The return code of a handler that makes a system call on the tree. -/
def returned (T : FS) : Except Errno FS → Int × FS
  | .error e => (e.rc, T)
  | .ok T' => (0, T')

section Handlers

variable (m : Matchers) (defaultPolicy : Int) (acls : List Acl) (umask : BitVec 32)
  (caller : Caller)

/-- `vdevfs_mknod`, with the last two arguments of `mknodat` as they stand there. -/
def vdevfsMknod (T : FS) (path : CStr) (mode : BitVec 32) (dev : BitVec 64) : Int × FS :=
  if Vdevfs.accessCheck m defaultPolicy acls caller path < 0 then (-EACCES, T)
  else returned T (mknodat T (relativePath path) (masked umask (dev.setWidth 32)) (mode.setWidth 64))

/-- `vdevfs_mkdir`. -/
def vdevfsMkdir (T : FS) (path : CStr) (mode : BitVec 32) : Int × FS :=
  if Vdevfs.accessCheck m defaultPolicy acls caller path < 0 then (-EACCES, T)
  else returned T (mkdir T (relativePath path) (maskedDir umask mode).toNat)

/-- `vdevfs_create`. -/
def vdevfsCreate (T : FS) (path : CStr) (mode : BitVec 32) : Int × FS :=
  if Vdevfs.accessCheck m defaultPolicy acls caller path < 0 then (-EACCES, T)
  else returned T (writeFile T (relativePath path) [] true (masked umask mode).toNat)

/-- `vdevfs_detach`. -/
def vdevfsDetach (T : FS) (path : CStr) : Int × FS :=
  if Vdevfs.accessCheck m defaultPolicy acls caller path < 0 then (Errno.enoent.rc, T)
  else (0, T)

def handler (T : FS) : Op → Int × FS
  | .mknod path mode dev => vdevfsMknod m defaultPolicy acls umask caller T path mode dev
  | .mkdir path mode => vdevfsMkdir m defaultPolicy acls umask caller T path mode
  | .create path mode => vdevfsCreate m defaultPolicy acls umask caller T path mode
  | .detach path => vdevfsDetach m defaultPolicy acls caller T path

end Handlers

/-- The tree of fskit, and the tree under `mountpoint_dirfd`. -/
structure Mount where
  tree : FS
  under : FS

/-- One operation. The handler is called when the operation can be applied to the tree of
fskit, and it is applied when the handler returns 0. -/
def step (m : Matchers) (defaultPolicy : Int) (acls : List Acl) (umask : BitVec 32)
    (l : Caller × Op) (s : Mount) : Option Mount :=
  match fskitApply s.tree l.2 with
  | .error _ => some s
  | .ok tree =>
    let (rc, under) := handler m defaultPolicy acls umask l.1 s.under l.2
    some ⟨if rc = 0 then tree else s.tree, under⟩

/-- The same paths, and the same type, permissions and device number at each of them. -/
def Mirrors (T U : FS) : Prop := ∀ l, (T.get l).map view = (U.get l).map view

theorem kindOf_ne_dir (mode : ℕ) : kindOf mode ≠ some .dir := by
  unfold kindOf
  split_ifs <;> simp

/-- At each path both trees have nothing, or a directory, or something else. -/
theorem Mirrors.alike {T U : FS} (h : Mirrors T U) (l : Location) :
    (T.get l = none ∧ U.get l = none) ∨
      (∃ a b, T.get l = some (.dir a) ∧ U.get l = some (.dir b)) ∨
      (∃ c d, T.get l = some (.leaf c) ∧ U.get l = some (.leaf d)) := by
  have hleaf : ∀ (a : ℕ) (c : Leaf), view (.dir a) ≠ view (.leaf c) := by
    intro a c heq
    have hkind := congrArg Node.kind heq
    cases c with
    | file mode content => cases hkind
    | device mode dev => exact kindOf_ne_dir mode hkind.symm
  have hl := h l
  cases hT : T.get l with
  | none =>
    rw [hT] at hl
    exact Or.inl ⟨rfl, Option.map_eq_none_iff.mp hl.symm⟩
  | some e =>
    rw [hT] at hl
    obtain ⟨e', hU, heq⟩ := Option.map_eq_some_iff.mp hl.symm
    cases e with
    | dir a =>
      cases e' with
      | dir b => exact Or.inr (Or.inl ⟨a, b, rfl, hU⟩)
      | leaf d => exact absurd heq.symm (hleaf a d)
    | leaf c =>
      cases e' with
      | dir b => exact absurd heq (hleaf b c)
      | leaf d => exact Or.inr (Or.inr ⟨c, d, rfl, hU⟩)

theorem Mirrors.isDir {T U : FS} (h : Mirrors T U) {l : Location} (hl : T.IsDir l) : U.IsDir l := by
  obtain ⟨a, ha⟩ := hl
  obtain ⟨hT, _⟩ | ⟨_, b, _, hU⟩ | ⟨c, _, hT, _⟩ := h.alike l
  · rw [ha] at hT
    cases hT
  · exact ⟨b, hU⟩
  · rw [ha] at hT
    cases hT

theorem Mirrors.walk_eq {T U : FS} (h : Mirrors T U) (l : Location) (cs : List CStr) :
    walk T l cs = walk U l cs := by
  induction cs generalizing l with
  | nil => rfl
  | cons c cs ih =>
    rw [walk, walk]
    obtain ⟨hT, hU⟩ | ⟨_, _, hT, hU⟩ | ⟨_, _, hT, hU⟩ := h.alike l
    · rw [hT, hU]
    · rw [hT, hU]
      simp only [ih]
    · rw [hT, hU]

theorem Mirrors.target_eq {T U : FS} (h : Mirrors T U) (path : CStr) :
    target T path = target U path := by
  unfold target
  split_ifs
  · rfl
  · split
    · rfl
    · rw [h.walk_eq]
      split
      · rfl
      · rename_i l _
        obtain ⟨hT, hU⟩ | ⟨_, _, hT, hU⟩ | ⟨_, _, hT, hU⟩ := h.alike l
        · rw [hT, hU]
        · rw [hT, hU]
        · rw [hT, hU]

theorem target_isDir {T : FS} {path : CStr} {l : Location} {n : Name}
    (h : target T path = .ok (l, .name n)) : T.IsDir l := by
  unfold target at h
  split_ifs at h
  split at h
  · cases h
  · split at h
    · cases h
    · split at h
      · cases h
      · cases h
      · rename_i a hdir
        rw [← (Prod.mk.inj (Except.ok.inj h)).1]
        exact ⟨a, hdir⟩

theorem names_dropWhile_slash (path : CStr) : names (path.dropWhile (· == '/')) = names path := by
  induction path with
  | nil => rfl
  | cons c path ih =>
    by_cases hc : c = '/'
    · subst hc
      rw [List.dropWhile_cons_of_pos (by simp), ih, names_slash]
    · rw [List.dropWhile_cons_of_neg (by simpa using hc)]

/-- The relative path leads to the same entry of a directory. -/
theorem target_relativePath {T : FS} {path : CStr} {l : Location} {n : Name}
    (h : target T path = .ok (l, .name n)) :
    target T (relativePath path) = .ok (l, .name n) ∧
      slashed (relativePath path) = slashed path := by
  have hnames := names_dropWhile_slash path
  have hrest : path.dropWhile (· == '/') ≠ [] := by
    intro hnil
    rw [hnil] at hnames
    unfold target at h
    rw [← hnames] at h
    split_ifs at h
    cases h
  have hpath : path ≠ [] := by
    rintro rfl
    exact hrest rfl
  unfold relativePath
  rw [if_neg hrest]
  constructor
  · unfold target at h ⊢
    rw [if_neg hrest, hnames]
    rwa [if_neg hpath] at h
  · conv_rhs => rw [← List.takeWhile_append_dropWhile (p := (· == '/')) (l := path)]
    exact (slashed_append _ _ hrest).symm

def Makes (T : FS) (path : CStr) (e : Entry ℕ Leaf) (T' : FS) : Prop :=
  ∃ n l, target T path = .ok (l, .name n) ∧ T.get (n :: l) = none ∧ T' = T.put n l e

theorem Makes.get {T T' : FS} {path : CStr} {e : Entry ℕ Leaf} (h : Makes T path e T') :
    ∃ n l, target T path = .ok (l, .name n) ∧ T.get (n :: l) = none ∧
      ∀ k, T'.get k = if k = n :: l then some e else T.get k := by
  obtain ⟨n, l, htarget, hnone, rfl⟩ := h
  refine ⟨n, l, htarget, hnone, fun k => ?_⟩
  exact T.get_put n l e (target_isDir htarget) (T.not_isDir_of_none _ hnone) k

/-- Two trees that are alike stay alike when the entries that are made in them are. -/
theorem Makes.mirrors_iff {T U T' U' : FS} {path : CStr} {e e' : Entry ℕ Leaf} (h : Mirrors T U)
    (hT : Makes T path e T') (hU : Makes U (relativePath path) e' U') :
    Mirrors T' U' ↔ view e = view e' := by
  obtain ⟨n, l, htarget, hnone, hgetT⟩ := hT.get
  obtain ⟨n', l', htarget', _, hgetU⟩ := hU.get
  have hsame : target U (relativePath path) = .ok (l, .name n) := by
    rw [← h.target_eq]
    exact (target_relativePath htarget).1
  rw [hsame, Except.ok.injEq, Prod.mk.injEq, Last.name.injEq] at htarget'
  obtain ⟨rfl, rfl⟩ := htarget'
  constructor
  · intro hafter
    have hk := hafter (n :: l)
    rw [hgetT, hgetU, if_pos rfl, if_pos rfl] at hk
    exact Option.some.inj hk
  · intro hview k
    rw [hgetT, hgetU]
    split_ifs
    · rw [Option.map_some, Option.map_some, hview]
    · exact h k

theorem mkdir_makes {T T' : FS} {path : CStr} {mode : ℕ} (h : mkdir T path mode = .ok T') :
    Makes T path (.dir mode) T' := by
  unfold mkdir at h
  split at h
  · cases h
  · rename_i l n htarget
    split at h
    · cases h
    · rename_i hnone
      cases h
      exact ⟨n, l, htarget, hnone, rfl⟩
  · cases h

theorem mknodat_makes {T T' : FS} {path : CStr} {mode : BitVec 32} {dev : BitVec 64}
    (h : mknodat T path mode dev = .ok T') :
    Makes T path (.leaf (.device mode.toNat dev.toNat)) T' := by
  unfold mknodat mknod at h
  split at h
  · cases h
  · split at h
    · cases h
    · rename_i l n htarget
      split at h
      · cases h
      · rename_i hnone
        split at h
        · cases h
        · cases h
          exact ⟨n, l, htarget, hnone, rfl⟩
    · cases h

theorem createNew_makes {T T' : FS} {path : CStr} {mode : BitVec 32}
    (h : createNew T path mode = .ok T') : Makes T path (.leaf (.file mode.toNat [])) T' := by
  unfold createNew at h
  split at h
  · cases h
  · rename_i l n htarget
    split at h
    · cases h
    · rename_i hnone
      split at h
      · cases h
      · cases h
        exact ⟨n, l, htarget, hnone, rfl⟩
  · cases h

/-- Where the entry is new in the other tree, it is new in the copy as well. -/
theorem Mirrors.target_new {T U : FS} (h : Mirrors T U) {path : CStr} {e : Entry ℕ Leaf} {T' : FS}
    (hT : Makes T path e T') : ∃ n l, target U (relativePath path) = .ok (l, .name n) ∧
      U.get (n :: l) = none ∧ slashed (relativePath path) = slashed path := by
  obtain ⟨n, l, htarget, hnone, _⟩ := hT
  refine ⟨n, l, ?_, ?_, (target_relativePath htarget).2⟩
  · rw [← h.target_eq]
    exact (target_relativePath htarget).1
  · obtain ⟨_, hU⟩ | ⟨_, _, hdir, _⟩ | ⟨_, _, hleaf, _⟩ := h.alike (n :: l)
    · exact hU
    · rw [hnone] at hdir
      cases hdir
    · rw [hnone] at hleaf
      cases hleaf

theorem mknodat_slashed {T T' : FS} {path : CStr} {mode : BitVec 32} {dev : BitVec 64}
    (h : mknodat T path mode dev = .ok T') : slashed path = false := by
  by_contra hslash
  unfold mknodat mknod at h
  split at h
  · cases h
  · split at h
    · cases h
    · split at h
      · cases h
      · rw [if_pos (by simpa using hslash)] at h
        cases h
    · cases h

theorem mknodat_new {T : FS} {path : CStr} {l : Location} {n : Name} (mode : BitVec 32)
    (dev : BitVec 64) (htarget : target T path = .ok (l, .name n)) (hnone : T.get (n :: l) = none)
    (hslash : slashed path = false) (hmode : mknodRefuses mode.toNat = none) :
    ∃ T', mknodat T path mode dev = .ok T' := by
  refine ⟨T.put n l (.leaf (.device mode.toNat dev.toNat)), ?_⟩
  simp only [mknodat, mknod, hmode, htarget, hnone, hslash, Bool.false_eq_true, if_false]

theorem mkdir_new {T : FS} {path : CStr} {l : Location} {n : Name} (mode : ℕ)
    (htarget : target T path = .ok (l, .name n)) (hnone : T.get (n :: l) = none) :
    ∃ T', mkdir T path mode = .ok T' := by
  refine ⟨T.put n l (.dir mode), ?_⟩
  simp only [mkdir, htarget, hnone]

theorem createNew_slashed {T T' : FS} {path : CStr} {mode : BitVec 32}
    (h : createNew T path mode = .ok T') : slashed path = false := by
  by_contra hslash
  unfold createNew at h
  split at h
  · cases h
  · split at h
    · cases h
    · rw [if_pos (by simpa using hslash)] at h
      cases h
  · cases h

theorem writeFile_new {T : FS} {path : CStr} {l : Location} {n : Name} (mode : ℕ)
    (htarget : target T path = .ok (l, .name n)) (hnone : T.get (n :: l) = none)
    (hslash : slashed path = false) : ∃ T', writeFile T path [] true mode = .ok T' := by
  refine ⟨T.put n l (.leaf (.file mode [])), ?_⟩
  simp only [writeFile, htarget, hnone, hslash, Bool.not_true, Bool.false_eq_true, if_false]

theorem writeFile_makes {T T' : FS} {path : CStr} {mode : ℕ} {l : Location} {n : Name}
    (htarget : target T path = .ok (l, .name n)) (hnone : T.get (n :: l) = none)
    (h : writeFile T path [] true mode = .ok T') : Makes T path (.leaf (.file mode [])) T' := by
  unfold writeFile at h
  simp only [htarget, hnone, Bool.not_true, Bool.false_eq_true, if_false] at h
  split at h
  · cases h
  · cases h
    exact ⟨n, l, htarget, hnone, rfl⟩

/-- The handler does to the copy what fskit does to its own tree, or the system call is
refused. -/
def KeepsCopy (umask : BitVec 32) : Op → Prop
  | .mknod _ mode dev =>
    mknodRefuses (masked umask (dev.setWidth 32)).toNat ≠ none ∨
      nodeOf mode.toNat dev.toNat =
        nodeOf (masked umask (dev.setWidth 32)).toNat (mode.setWidth 64).toNat
  | .mkdir _ mode => permOf mode.toNat = permOf (maskedDir umask mode).toNat
  | .create _ mode => permOf mode.toNat = permOf (masked umask mode).toNat
  | .detach _ => False

/-- The condition on an operation: fskit or the ACLs refuse it, or it keeps the copy. -/
def Harmless (m : Matchers) (defaultPolicy : Int) (acls : List Acl) (umask : BitVec 32)
    (l : Caller × Op) (s : Mount) : Prop :=
  (∃ e, fskitApply s.tree l.2 = .error e) ∨
    Vdevfs.accessCheck m defaultPolicy acls l.1 l.2.path < 0 ∨ KeepsCopy umask l.2

section Steps

variable (m : Matchers) (defaultPolicy : Int) (acls : List Acl) (umask : BitVec 32)
  (caller : Caller)

theorem handler_denied {op : Op}
    (hdenied : Vdevfs.accessCheck m defaultPolicy acls caller op.path < 0) (U : FS) :
    (handler m defaultPolicy acls umask caller U op).1 ≠ 0 ∧
      (handler m defaultPolicy acls umask caller U op).2 = U := by
  cases op with
  | mknod path mode dev =>
    rw [Op.path] at hdenied
    rw [handler, vdevfsMknod, if_pos hdenied]
    exact ⟨show -EACCES ≠ 0 by decide, rfl⟩
  | mkdir path mode =>
    rw [Op.path] at hdenied
    rw [handler, vdevfsMkdir, if_pos hdenied]
    exact ⟨show -EACCES ≠ 0 by decide, rfl⟩
  | create path mode =>
    rw [Op.path] at hdenied
    rw [handler, vdevfsCreate, if_pos hdenied]
    exact ⟨show -EACCES ≠ 0 by decide, rfl⟩
  | detach path =>
    rw [Op.path] at hdenied
    rw [handler, vdevfsDetach, if_pos hdenied]
    exact ⟨Errno.rc_ne_zero .enoent, rfl⟩

def after (T T' : FS) (r : Int × FS) : Mount := ⟨if r.1 = 0 then T' else T, r.2⟩

theorem not_error_of_ok {r : Except Errno FS} (h : ∃ T, r = .ok T) : ¬∃ err, r = .error err := by
  obtain ⟨T, rfl⟩ := h
  rintro ⟨err, herr⟩
  cases herr

/-- A call that fails changes neither tree, and one that succeeds leaves them alike when
the new entries are. -/
theorem mirrors_after_returned {T U T' : FS} {path : CStr} {e e' : Entry ℕ Leaf}
    {r : Except Errno FS} (h : Mirrors T U) (hT : Makes T path e T')
    (hU : ∀ U', r = .ok U' → Makes U (relativePath path) e' U') :
    Mirrors (after T T' (returned U r)).tree (after T T' (returned U r)).under ↔
      (∃ err, r = .error err) ∨ view e = view e' := by
  cases r with
  | error err =>
    have hrc : ¬(returned U (.error err)).1 = 0 := err.rc_ne_zero
    refine iff_of_true ?_ (Or.inl ⟨err, rfl⟩)
    rw [after, if_neg hrc]
    exact h
  | ok U' =>
    have hafter : after T T' (returned U (.ok U')) = ⟨T', U'⟩ := by
      rw [after, returned, if_pos rfl]
    rw [hafter, Makes.mirrors_iff h hT (hU U' rfl)]
    refine ⟨Or.inr, fun hor => hor.resolve_left ?_⟩
    rintro ⟨err, herr⟩
    cases herr

/-- Removing an entry from one tree only sets the trees apart. -/
theorem not_mirrors_remove {T U : FS} (h : Mirrors T U) {n : Name} {l : Location}
    (hchildless : T.Childless (n :: l)) (hsome : T.get (n :: l) ≠ none) :
    ¬Mirrors (T.remove n l) U := by
  intro hafter
  have hk := hafter (n :: l)
  rw [T.get_remove n l hchildless, if_pos rfl, ← h (n :: l)] at hk
  exact hsome (Option.map_eq_none_iff.mp hk.symm)

theorem detach_removes {T T' : FS} {path : CStr} (h : fskitApply T (.detach path) = .ok T') :
    ∃ n l, T.Childless (n :: l) ∧ T.get (n :: l) ≠ none ∧ T' = T.remove n l := by
  rw [fskitApply] at h
  split at h
  · unfold rmdir at h
    split at h
    · cases h
    · rename_i l n htarget
      split at h
      · cases h
      · cases h
      · rename_i a hdir
        split at h
        · rename_i hchildless
          cases h
          exact ⟨n, l, hchildless, by simp [hdir], rfl⟩
        · cases h
    · cases h
    · cases h
    · cases h
  · unfold unlink at h
    split at h
    · cases h
    · rename_i l n htarget
      split at h
      · cases h
      · cases h
      · rename_i c hleaf
        split at h
        · cases h
        · cases h
          exact ⟨n, l, T.childless_of_not_isDir _ (T.not_isDir_of_leaf _ c hleaf), by simp [hleaf],
            rfl⟩
    · cases h

/-- One operation on trees that are alike leaves them alike exactly when it is harmless. -/
theorem step_mirrors_iff {op : Op} {s s' : Mount}
    (h : Mirrors s.tree s.under) (hstep : step m defaultPolicy acls umask (caller, op) s = some s') :
    Mirrors s'.tree s'.under ↔ Harmless m defaultPolicy acls umask (caller, op) s := by
  unfold step at hstep
  cases hfskit : fskitApply s.tree op with
  | error err =>
    simp only [hfskit] at hstep
    cases hstep
    exact iff_of_true h (Or.inl ⟨err, hfskit⟩)
  | ok T' =>
    simp only [hfskit] at hstep
    have hs' : s' = after s.tree T' (handler m defaultPolicy acls umask caller s.under op) :=
      (Option.some.inj hstep).symm
    have hharmless : Harmless m defaultPolicy acls umask (caller, op) s ↔
        Vdevfs.accessCheck m defaultPolicy acls caller op.path < 0 ∨ KeepsCopy umask op := by
      rw [Harmless, hfskit]
      exact or_iff_right (by rintro ⟨e, he⟩; cases he)
    rw [hs', hharmless]
    by_cases hdenied : Vdevfs.accessCheck m defaultPolicy acls caller op.path < 0
    · obtain ⟨hrc, hsame⟩ := handler_denied m defaultPolicy acls umask caller hdenied s.under
      refine iff_of_true ?_ (Or.inl hdenied)
      rw [after, if_neg hrc, hsame]
      exact h
    · rw [or_iff_right hdenied]
      cases op with
      | mknod path mode dev =>
        have hT := mknodat_makes hfskit
        obtain ⟨n, l, htarget, hnone, hslash⟩ := h.target_new hT
        rw [Op.path] at hdenied
        rw [handler, vdevfsMknod, if_neg hdenied,
          mirrors_after_returned h hT (fun U' hU' => mknodat_makes hU'), KeepsCopy]
        refine or_congr_left ⟨?_, fun hrefused => ?_⟩
        · rintro ⟨err, herr⟩ hmode
          rw [mknodat_slashed hfskit] at hslash
          obtain ⟨U', hU'⟩ := mknodat_new _ (mode.setWidth 64) htarget hnone hslash hmode
          rw [hU'] at herr
          cases herr
        · obtain ⟨err, herr⟩ := Option.ne_none_iff_exists'.mp hrefused
          exact ⟨err, by rw [mknodat, mknod, herr]⟩
      | mkdir path mode =>
        have hT := mkdir_makes hfskit
        obtain ⟨n, l, htarget, hnone, _⟩ := h.target_new hT
        rw [Op.path] at hdenied
        rw [handler, vdevfsMkdir, if_neg hdenied,
          mirrors_after_returned h hT (fun U' hU' => mkdir_makes hU'), KeepsCopy,
          or_iff_right (not_error_of_ok (mkdir_new _ htarget hnone))]
        simp [view]
      | create path mode =>
        have hT := createNew_makes hfskit
        obtain ⟨n, l, htarget, hnone, hslash⟩ := h.target_new hT
        rw [createNew_slashed hfskit] at hslash
        rw [Op.path] at hdenied
        rw [handler, vdevfsCreate, if_neg hdenied,
          mirrors_after_returned h hT (fun U' hU' => writeFile_makes htarget hnone hU'), KeepsCopy,
          or_iff_right (not_error_of_ok (writeFile_new _ htarget hnone hslash))]
        simp [view]
      | detach path =>
        obtain ⟨n, l, hchildless, hsome, rfl⟩ := detach_removes hfskit
        rw [Op.path] at hdenied
        rw [handler, vdevfsDetach, if_neg hdenied]
        exact iff_of_false (not_mirrors_remove h hchildless hsome) id

/-- The copy mirrors the tree after every run of harmless operations. -/
theorem mirrors_of_harmless (ls : List (Caller × Op)) (s t : Mount) (hs : Mirrors s.tree s.under)
    (hok : Runs.Guarded (step m defaultPolicy acls umask) (Harmless m defaultPolicy acls umask) ls s)
    (h : Runs.run (step m defaultPolicy acls umask) ls s = some t) : Mirrors t.tree t.under := by
  apply Runs.guarded_invariant (step m defaultPolicy acls umask) (fun s => Mirrors s.tree s.under) _ hok
    hs h
  intro l s s' hl hmirrors hstep
  exact (step_mirrors_iff m defaultPolicy acls umask l.1 hmirrors hstep).mpr hl

end Steps

def emptyMount : Mount := ⟨Tree.bare 0o755, Tree.bare 0o755⟩

def makeInput : List (Caller × Op) :=
  [(Vdevfs.user, .mkdir "/input".toList 0o755), (Vdevfs.user, .create "/input/log".toList 0o600)]

/-- The usual umask takes nothing from the modes. -/
theorem mirrors_makeInput :
    ∃ t, Runs.run (step Vdevfs.randomMatchers 0 [Vdevfs.whitelist] 0o022) makeInput emptyMount =
      some t ∧ Mirrors t.tree t.under := by
  have hrun : (Runs.run (step Vdevfs.randomMatchers 0 [Vdevfs.whitelist] 0o022) makeInput
      emptyMount).isSome := by
    decide +kernel
  obtain ⟨t, ht⟩ := Option.isSome_iff_exists.mp hrun
  refine ⟨t, ht, mirrors_of_harmless Vdevfs.randomMatchers 0 [Vdevfs.whitelist] 0o022 makeInput
    emptyMount t (fun _ => rfl) ?_ ht⟩
  apply Runs.guarded_of_forall
  intro l hl s
  have hkeeps : KeepsCopy 0o022 l.2 := by
    rcases List.mem_cons.mp hl with rfl | hl
    · exact show permOf _ = permOf _ by decide
    · rw [List.mem_singleton.mp hl]
      exact show permOf _ = permOf _ by decide
  exact Or.inr (Or.inr hkeeps)

/-- The request for the node of `/dev/null`. -/
def mknodNull : Caller × Op := (Vdevfs.user, .mknod "/null".toList 0o020666 0x103)

def entryOf (n : Name) (t : Mount) : Option Node × Option Node :=
  ((t.tree.get [n]).map view, (t.under.get [n]).map view)

/-- After the node is made, the copy holds a regular file with the permissions 0403. After
a directory is removed from two trees that were alike, it is still in the copy. With the usual
umask, a directory for everyone is not one in the copy. -/
theorem not_mirrors_mknodNull :
    (¬∀ ls s t, Mirrors s.tree s.under →
      Runs.run (step Vdevfs.randomMatchers 0 [Vdevfs.whitelist] 0) ls s = some t →
        Mirrors t.tree t.under) ∧
    (Runs.run (step Vdevfs.randomMatchers 0 [Vdevfs.whitelist] 0) [mknodNull] emptyMount).map
        (entryOf ⟨"null".toList, by decide⟩) =
      some (some ⟨some .chr, 0o666, 0x103⟩, some ⟨some .regular, 0o403, 0⟩) ∧
    (Runs.run (step Vdevfs.randomMatchers 0 [Vdevfs.whitelist] 0)
        [(Vdevfs.user, .mkdir "/pts".toList 0o755), (Vdevfs.user, .detach "/pts".toList)]
        emptyMount).map (entryOf ⟨"pts".toList, by decide⟩) =
      some (none, some ⟨some .dir, 0o755, 0⟩) ∧
    (Runs.run (step Vdevfs.randomMatchers 0 [Vdevfs.whitelist] 0o022)
        [(Vdevfs.user, .mkdir "/shm".toList 0o1777)] emptyMount).map
        (entryOf ⟨"shm".toList, by decide⟩) =
      some (some ⟨some .dir, 0o1777, 0⟩, some ⟨some .dir, 0o1755, 0⟩) := by
  have hnull : (Runs.run (step Vdevfs.randomMatchers 0 [Vdevfs.whitelist] 0) [mknodNull]
      emptyMount).map (entryOf ⟨"null".toList, by decide⟩) =
      some (some ⟨some .chr, 0o666, 0x103⟩, some ⟨some .regular, 0o403, 0⟩) := by
    decide +kernel
  refine ⟨fun h => ?_, hnull, by decide +kernel, by decide +kernel⟩
  obtain ⟨t, ht, heq⟩ := Option.map_eq_some_iff.mp hnull
  obtain ⟨htree, hunder⟩ := Prod.mk.inj heq
  have hmirrors := h [mknodNull] emptyMount t (fun _ => rfl) ht [⟨"null".toList, by decide⟩]
  rw [htree, hunder] at hmirrors
  exact absurd hmirrors (by decide)

end Vdev.VdevfsMirror
